import NetProg.NameServer.Chains

/-!
# What `cp` adds

An accepted `cp` links in one node (`Grown`).  It should have the destination directory as its parent, and the old nodes
should keep theirs (`OnlyAdds`).  `copyfile` sets the field `parent` of the source instead of that of the copy, which
is never assigned (`Copied`).

`cp_adds`: an accepted `cp` always does the latter and never the former.
-/

namespace NetProg.NameServer

open NetProg.Lib

/-- One node is appended to the chain `l` of `d`, a copy of `xn` with a name and a location of its own.  The pointer
behind the chain aside, the old nodes keep their fields; the field `parent` is left open. -/
structure Grown (h h' : Heap) (xn : Node) (d : ℕ) (l : List ℕ) (name loc : CStr) : Prop where
  length : h'.length = h.length + 1
  name : field Node.name h' h.length = some name
  type : field Node.type h' h.length = some xn.type
  no_of_chunks : field Node.no_of_chunks h' h.length = some xn.no_of_chunks
  loc_name : field Node.loc_name h' h.length = some loc
  leaf : field Node.child h' h.length = some .null ∧ field Node.next h' h.length = some .null
  chain : (links h').Kids d (l ++ [h.length])
  child : ∀ a < h.length, (a = d ∧ l = []) ∨ field Node.child h' a = field Node.child h a
  next : ∀ a < h.length, l.getLast? = some a ∨ field Node.next h' a = field Node.next h a
  kept : ∀ a < h.length, field Node.name h' a = field Node.name h a ∧ field Node.type h' a = field Node.type h a ∧
    field Node.no_of_chunks h' a = field Node.no_of_chunks h a ∧ field Node.loc_name h' a = field Node.loc_name h a

/-- **`cp` only adds.**  The source and the destination are resolved, and the copy is added to the destination directory;
the current directory and the fields `parent` of the old nodes stay. -/
def OnlyAdds (s : Mem) (source destination loc : CStr) (s' : Mem) : Prop :=
  ∃ x xn d new l, Resolve s.heap anyNode s.cur (fields slash source) (.node x) ∧ s.heap[x]? = some xn ∧
    Dest s.heap s.cur (fields slash destination) d new ∧ field Node.type s.heap d = some .directory ∧
    (links s.heap).Kids d l ∧ Grown s.heap s'.heap xn d l (new.getD xn.name) loc ∧ s'.cur = s.cur ∧
    field Node.parent s'.heap s.heap.length = some (.node d) ∧
    ∀ a < s.heap.length, field Node.parent s'.heap a = field Node.parent s.heap a

/-- What `cp` does: the same, but for the fields `parent`.  That of the copy is never assigned, and that of the source
points to the destination. -/
def Copied (s : Mem) (source destination loc : CStr) (s' : Mem) : Prop :=
  ∃ x xn d new l, Resolve s.heap anyNode s.cur (fields slash source) (.node x) ∧ s.heap[x]? = some xn ∧
    Dest s.heap s.cur (fields slash destination) d new ∧ field Node.type s.heap d = some .directory ∧
    (links s.heap).Kids d l ∧ Grown s.heap s'.heap xn d l (new.getD xn.name) loc ∧ s'.cur = s.cur ∧
    field Node.parent s'.heap s.heap.length = some .unassigned ∧ field Node.parent s'.heap x = some (.node d) ∧
    ∀ a < s.heap.length, a ≠ x → field Node.parent s'.heap a = field Node.parent s.heap a

section

variable {s s' : Mem} {h : Heap} {a d x : ℕ} {p q : Ptr ℕ} {l : List ℕ} {n xn : Node} {source destination loc : CStr}
  {out : List Byte} {β : Type} {f : Node → β}

/-- The heap with one node more, a new parent for `x`, and a new pointer behind `l`. -/
def grow (h : Heap) (n : Node) (x : ℕ) (p : Ptr ℕ) (d : ℕ) (l : List ℕ) : Heap :=
  setAfter (setParent (h ++ [n]) x p) d l (.node h.length)

@[simp] theorem length_grow : (grow h n x p d l).length = h.length + 1 := by simp [grow]

/-- A field that no assignment changes. -/
theorem field_grow (hc : ∀ n p, f { n with child := p } = f n) (hn : ∀ n p, f { n with next := p } = f n)
    (hp : ∀ n p, f { n with parent := p } = f n) : field f (grow h n x p d l) a = field f (h ++ [n]) a := by
  rw [grow, field_setAfter hc hn, field_setParent hp]

theorem field_grow_new (hc : ∀ n p, f { n with child := p } = f n) (hn : ∀ n p, f { n with next := p } = f n)
    (hp : ∀ n p, f { n with parent := p } = f n) : field f (grow h n x p d l) h.length = some (f n) := by
  rw [field_grow hc hn hp, field_append_self]

theorem field_grow_old (hc : ∀ n p, f { n with child := p } = f n) (hn : ∀ n p, f { n with next := p } = f n)
    (hp : ∀ n p, f { n with parent := p } = f n) (ha : a < h.length) : field f (grow h n x p d l) a = field f h a := by
  rw [field_grow hc hn hp, field_append_of_lt n ha]

/-- The assignment behind a chain changes one pointer. -/
theorem child_setAfter : (a = d ∧ l = []) ∨ field Node.child (setAfter h d l q) a = field Node.child h a := by
  rcases List.eq_nil_or_concat' l with rfl | ⟨l, b, rfl⟩
  · by_cases had : a = d
    · exact Or.inl ⟨had, rfl⟩
    · exact Or.inr (field_modify_of_ne _ (Ne.symm had))
  · rw [setAfter_concat]
    exact Or.inr (field_setNext fun _ _ => rfl)

theorem next_setAfter : l.getLast? = some a ∨ field Node.next (setAfter h d l q) a = field Node.next h a := by
  rcases List.eq_nil_or_concat' l with rfl | ⟨l, b, rfl⟩
  · rw [setAfter_nil]
    exact Or.inr (field_setChild fun _ _ => rfl)
  · rw [setAfter_concat]
    by_cases hab : b = a
    · exact Or.inl (by simp [hab])
    · exact Or.inr (field_modify_of_ne _ hab)

theorem child_grow : (a = d ∧ l = []) ∨ field Node.child (grow h n x p d l) a = field Node.child (h ++ [n]) a := by
  rw [← field_setParent (h := h ++ [n]) (a := x) (p := p) (f := Node.child) fun _ _ => rfl]
  exact child_setAfter

theorem next_grow : l.getLast? = some a ∨ field Node.next (grow h n x p d l) a = field Node.next (h ++ [n]) a := by
  rw [← field_setParent (h := h ++ [n]) (a := x) (p := p) (f := Node.next) fun _ _ => rfl]
  exact next_setAfter

theorem parent_grow : field Node.parent (grow h n x p d l) a = field Node.parent (setParent (h ++ [n]) x p) a :=
  field_setAfter (fun _ _ => rfl) fun _ _ => rfl

/-- The chain with the new node. -/
theorem kids_grow (hs : Shaped h) (hd : d < h.length) (hk : (links h).Kids d l) (hc : n.child.orNull = .null)
    (hn : n.next = .null) : (links (grow h n x p d l)).Kids d (l ++ [h.length]) := by
  rw [grow, links_insert hs hd hk hc hn links_setParent (by simp)]
  have hnew : Chain (links h).next (.node h.length) [h.length] := ⟨rfl, links_next_of_ge le_rfl⟩
  refine Links.kids_setAfter (m := []) (by simpa using hk) hnew fun a ha hmem => ?_
  rw [List.mem_singleton.1 hmem] at ha
  exact (hs.kids_filled hk _ ha).lt.ne rfl

/-- What is added, but for the fields `parent`. -/
theorem grown_grow (hs : Shaped s.heap) (hd : d < s.heap.length) (hk : (links s.heap).Kids d l) (name : CStr) :
    Grown s.heap (grow s.heap (copyNode s xn name loc) x p d l) xn d l name loc := by
  refine ⟨length_grow, field_grow_new (fun _ _ => rfl) (fun _ _ => rfl) fun _ _ => rfl,
    field_grow_new (fun _ _ => rfl) (fun _ _ => rfl) fun _ _ => rfl,
    field_grow_new (fun _ _ => rfl) (fun _ _ => rfl) fun _ _ => rfl,
    field_grow_new (fun _ _ => rfl) (fun _ _ => rfl) fun _ _ => rfl, ⟨?_, ?_⟩, kids_grow hs hd hk rfl rfl, ?_, ?_, ?_⟩
  · rcases child_grow (a := s.heap.length) with ⟨heq, -⟩ | hnew
    · exact absurd heq hd.ne'
    · rw [hnew, field_append_self]
      rfl
  · rcases next_grow (a := s.heap.length) with hlast | hnew
    · exact absurd rfl (hs.kids_filled hk _ (List.mem_of_getLast? hlast)).lt.ne
    · rw [hnew, field_append_self]
      rfl
  · intro a ha
    rw [← field_append_of_lt (copyNode s xn name loc) ha]
    exact child_grow
  · intro a ha
    rw [← field_append_of_lt (copyNode s xn name loc) ha]
    exact next_grow
  · intro a ha
    exact ⟨field_grow_old (fun _ _ => rfl) (fun _ _ => rfl) (fun _ _ => rfl) ha,
      field_grow_old (fun _ _ => rfl) (fun _ _ => rfl) (fun _ _ => rfl) ha,
      field_grow_old (fun _ _ => rfl) (fun _ _ => rfl) (fun _ _ => rfl) ha,
      field_grow_old (fun _ _ => rfl) (fun _ _ => rfl) (fun _ _ => rfl) ha⟩

/-- The field `parent` of the copy is the one it was allocated with. -/
theorem parent_grow_new (hx : x < h.length) : field Node.parent (grow h n x p d l) h.length = some n.parent := by
  rw [parent_grow, setParent, field_modify_of_ne _ hx.ne, field_append_self]

theorem parent_grow_source (hx : x < h.length) : field Node.parent (grow h n x p d l) x = some p := by
  rw [parent_grow]
  exact field_setParent_parent.2 (Or.inl ⟨rfl, by simp; omega, rfl⟩)

theorem parent_grow_old (ha : a < h.length) (hax : a ≠ x) :
    field Node.parent (grow h n x p d l) a = field Node.parent h a := by
  rw [parent_grow, setParent, field_modify_of_ne _ (Ne.symm hax), field_append_of_lt n ha]

theorem Copy.copied {new : Option CStr} (hs : Typed s) (h : Copy s source destination loc out s' x d xn new l) :
    Copied s source destination loc s' := by
  obtain ⟨hsrc, hx, hdest, htype, hk, -, rfl⟩ := h
  have hd := (hs.heap.dest_filled hdest hs.cur.inside).lt
  exact ⟨x, xn, d, new, l, hsrc, hx, hdest, htype, hk, grown_grow hs.heap hd hk _, rfl,
    parent_grow_new (lt_of_get hx), parent_grow_source (lt_of_get hx), fun a ha hax => parent_grow_old ha hax⟩

/-- **An accepted `cp` does not only add**: in every state the server reaches, it adds the node it should, without a
parent, and makes the destination the parent of the source. -/
theorem cp_adds (h : Reachable s) (hstep : Step s (.cp source destination loc) ((lit "0").z ++ out) s') :
    Copied s source destination loc s' ∧ ¬ OnlyAdds s source destination loc s' := by
  rcases cp_cases h.typed hstep with ⟨hout, -⟩ | ⟨x, d, xn, new, l, hcopy⟩
  · exact absurd (congrArg List.head? hout) (by simp [CStr.z, lit]; decide)
  · have hcopied := hcopy.copied h.typed
    refine ⟨hcopied, ?_⟩
    rintro ⟨-, -, d', -, -, -, -, -, -, -, -, -, hparent, -⟩
    obtain ⟨-, -, -, -, -, -, -, -, -, -, -, -, hunassigned, -⟩ := hcopied
    rw [hunassigned] at hparent
    cases hparent

/-- `cp f d` for a file of `home` and a directory beside it. -/
theorem cp_adds_file : ∃ s ∈ serve (fresh zeroed) [.mkdir (lit "d"), .tobigfs (lit "f") (lit "3") (lit "x")],
    ∃ s' ∈ serve s [.cp (lit "f") (lit "d") (lit "y")], Copied s (lit "f") (lit "d") (lit "y") s' ∧
      ¬ OnlyAdds s (lit "f") (lit "d") (lit "y") s' := by
  obtain ⟨s, hs, s', hs', hout⟩ : ∃ s ∈ serve (fresh zeroed) [.mkdir (lit "d"), .tobigfs (lit "f") (lit "3") (lit "x")],
      ∃ s' ∈ serve s [.cp (lit "f") (lit "d") (lit "y")],
        (exec s (.cp (lit "f") (lit "d") (lit "y"))).1 = (lit "0").z ++ ((lit "x").z ++ (lit "3").z) := by decide
  exact ⟨s, hs, s', hs', cp_adds (reachable_serve hs) (step_of_serve hs' hout)⟩

/-- `cp f d` makes `d` the parent of `f`, which stays in `home`. -/
theorem cp_moves_parent : ∃ s s', Reachable s ∧
    Step s (.cp (lit "f") (lit "d") (lit "y")) ((lit "0").z ++ ((lit "x").z ++ (lit "3").z)) s' ∧
    field Node.parent s.heap 2 = some (.node home) ∧ field Node.parent s'.heap 2 = some (.node 1) ∧
    ¬ OnlyAdds s (lit "f") (lit "d") (lit "y") s' := by
  obtain ⟨s, hs, s', hs', hout, hlen, hbefore, hafter⟩ : ∃ s ∈ serve (fresh zeroed)
      [.mkdir (lit "d"), .tobigfs (lit "f") (lit "3") (lit "x")], ∃ s' ∈ serve s [.cp (lit "f") (lit "d") (lit "y")],
        (exec s (.cp (lit "f") (lit "d") (lit "y"))).1 = (lit "0").z ++ ((lit "x").z ++ (lit "3").z) ∧
        s.heap.length = 3 ∧ field Node.parent s.heap 2 = some (.node home) ∧
        field Node.parent s'.heap 2 = some (.node 1) := by decide
  refine ⟨s, s', reachable_serve hs, step_of_serve hs' hout, hbefore, hafter, ?_⟩
  rintro ⟨-, -, -, -, -, -, -, -, -, -, -, -, -, hsame⟩
  have := hsame 2 (by omega)
  rw [hbefore, hafter] at this
  cases this

end

end NetProg.NameServer
