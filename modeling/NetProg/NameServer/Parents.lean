import NetProg.NameServer.Chains

/-!
# Parent links

`Agree h`: every node of a child chain has the owner of the chain as its parent.  `mkdir`, `tobigfs`, `rm` and `mv` keep
it (`agree_step`); a copy that is carried out does not: it leaves the field `parent` of the new node unassigned and
sends that of its source to the destination.
-/

namespace NetProg.NameServer

open NetProg.Lib

/-- Every node of a child chain has the owner of the chain as its parent. -/
def Agree (h : Heap) : Prop := ∀ d l, (links h).Kids d l → ∀ n ∈ l, field Node.parent h n = some (.node d)

/-- `x` stands on the chain of its parent, or on none and alone. -/
def Placed (h : Heap) (x : ℕ) : Prop := OnOwnChain h x ∨ (links h).Off x ∧ (links h).next x = .null

/-- If the source of a `mv` is found, it is unlinked from where it stands, and nothing with it. -/
def MvAlone (s : Mem) (c : Cmd) : Prop :=
  ∀ source destination x, c = .mv source destination →
    Resolve s.heap anyNode s.cur (fields slash source) (.node x) → Placed s.heap x

/-- A `cp` is rejected: its source is missing, or its destination is, or the destination is a file. -/
def CpRejected (s : Mem) (c : Cmd) : Prop :=
  ∀ source destination loc x d new, c = .cp source destination loc →
    Resolve s.heap anyNode s.cur (fields slash source) (.node x) → Dest s.heap s.cur (fields slash destination) d new →
    field Node.type s.heap d ≠ some .directory

section

variable {s s' : Mem} {h h' : Heap} {a b d x : ℕ} {p : Ptr ℕ} {l m : List ℕ} {n : Node} {c : Cmd} {out : List Byte}

theorem Placed.loose (hx : Placed h x) : OnOwnChain h x ∨ Loose h x := by
  refine hx.imp_right ?_
  rintro ⟨hoff, hn⟩
  exact loose_of_next_null hoff hn

theorem MvAlone.ok (hok : MvAlone s c) : MvOk s c := fun source destination x e hr =>
  (hok source destination x e hr).loose

/-- A node that is unlinked alone is left without a sibling. -/
theorem Unlinked.next_null (hs : Shaped h) (hL : (links h).Sound) (hu : Unlinked h x h') (hx : Placed h x) :
    (links h').next x = .null := by
  obtain ⟨-, -, xn, par, hg, hpar, hcase⟩ := hu.sound hs hL hx.loose
  rcases hcase with ⟨rfl, l, hk, hn⟩ | ⟨l, v, r, m, -, -, -, -, -, h0, -⟩
  · rcases hx with hown | ⟨-, h0⟩
    · -- on its own chain it would have been found
      exact absurd (hown.mem hg hpar hk) (hn.notMem (field_of_get hg))
    · exact h0
  · exact h0

theorem Unlinked.field_eq {β : Type} {f : Node → β} (hu : Unlinked h x h')
    (hc : ∀ n p, f { n with child := p } = f n) (hn : ∀ n p, f { n with next := p } = f n) :
    field f h' a = field f h a := by
  cases hu with
  | kept => rfl
  | cut => exact field_cut hc hn

/-- A node that is unlinked alone leaves the others of its chain in their order. -/
theorem Unlinked.kids_sublist (hs : Shaped h) (hL : (links h).Sound) (hu : Unlinked h x h') (hx : Placed h x) :
    ∀ e le', (links h').Kids e le' → ∃ le, (links h).Kids e le ∧ List.Sublist le' le := by
  obtain ⟨-, -, xn, par, hg, hpar, hcase⟩ := hu.sound hs hL hx.loose
  intro e le' he
  rcases hcase with ⟨rfl, -⟩ | ⟨l, v, r, m, hk, -, -, hm, hin, -, hk', hother⟩
  · exact ⟨le', he, .refl _⟩
  · by_cases hne : e = par
    · subst hne
      rw [he.unique hk']
      refine ⟨l ++ v :: r, hk, List.Sublist.append_left ?_ l⟩
      rcases hin with ⟨t, et⟩ | hoff
      · rw [et]
        exact (List.sublist_cons_self x m).trans (List.sublist_append_right t _)
      · -- nothing stands behind a node that is on no chain
        rcases hx with ⟨par', l', -, hk₀, hxl⟩ | ⟨-, h0⟩
        · exact absurd hxl (hoff x (by simp) par' l' hk₀)
        · have hnull := hm.2
          rw [h0] at hnull
          cases m with
          | nil => exact List.nil_sublist _
          | cons z m => cases hnull.1
    · exact ⟨le', (hother e le' hne).2 he, .refl _⟩

theorem kids_cut_sublist (hs : Shaped h) (hL : (links h).Sound) (hd : d < h.length)
    (hv : Seg (links h).next ((links h).child d) l (.node x)) (hx : h[x]? = some n) :
    ∀ e le', (links (cut h d l x n.next)).Kids e le' → ∃ le, (links h).Kids e le ∧ List.Sublist le' le := by
  obtain ⟨-, m, hk, hk', hother⟩ := sound_remove hs hL hd hv hx
  intro e le' he
  by_cases hne : e = d
  · subst hne
    rw [he.unique hk']
    exact ⟨_, hk, List.Sublist.append_left (List.sublist_cons_self x m) l⟩
  · exact ⟨le', (hother e le' hne).2 he, .refl _⟩

/-- What is linked in and renamed leaves the fields of other nodes as they are. -/
theorem field_move_of_ne {β : Type} {f : Node → β} (hc : ∀ n p, f { n with child := p } = f n)
    (hn : ∀ n p, f { n with next := p } = f n) {new : Option CStr} {q : Ptr ℕ} (hb : b ≠ x) :
    field f (rename (setAfter (setParent h x p) d l q) x new) b = field f h b := by
  have hbase : field f (setAfter (setParent h x p) d l q) b = field f h b :=
    (field_setAfter hc hn).trans (field_modify_of_ne _ (Ne.symm hb))
  cases new with
  | none => exact hbase
  | some new => exact (field_modify_of_ne _ (Ne.symm hb)).trans hbase

/-- Chains that lose nodes, or are as they were. -/
theorem Agree.sublist (hA : Agree h)
    (hkids : ∀ e le', (links h').Kids e le' → ∃ le, (links h).Kids e le ∧ List.Sublist le' le)
    (hold : ∀ e le, (links h).Kids e le → ∀ b ∈ le, field Node.parent h' b = field Node.parent h b) : Agree h' := by
  intro e le' he y hy
  obtain ⟨le, hk, hsub⟩ := hkids e le' he
  have hmem := hsub.subset hy
  exact (hold e le hk y hmem).trans (hA e le hk y hmem)

/-- A chain that gets one more node. -/
theorem Agree.concat (hA : Agree h) (hk : (links h).Kids d l) (hk' : (links h').Kids d (l ++ [x]))
    (hother : ∀ e le, e ≠ d → ((links h).Kids e le ↔ (links h').Kids e le))
    (hold : ∀ e le, (links h).Kids e le → ∀ b ∈ le, field Node.parent h' b = field Node.parent h b)
    (hx : field Node.parent h' x = some (.node d)) : Agree h' := by
  intro e le he y hy
  by_cases hne : e = d
  · subst hne
    rw [he.unique hk'] at hy
    rcases List.mem_append.1 hy with hy | hy
    · exact (hold e l hk y hy).trans (hA e l hk y hy)
    · exact List.mem_singleton.1 hy ▸ hx
  · have hke := (hother e le hne).2 he
    exact (hold e le hke y hy).trans (hA e le hke y hy)

theorem Unlinked.agree (hs : Shaped h) (hL : (links h).Sound) (hA : Agree h) (hu : Unlinked h x h')
    (hx : Placed h x) : Agree h' :=
  hA.sublist (hu.kids_sublist hs hL hx) fun _ _ _ _ _ => hu.field_eq (fun _ _ => rfl) fun _ _ => rfl

theorem agree_step (hs : Typed s) (hL : (links s.heap).Sound) (hA : Agree s.heap) (hmv : MvAlone s c)
    (hcp : CpRejected s c) (h : Step s c out s') : Agree s'.heap := by
  cases step_cases hs h with
  | keep => exact hA
  | enter => exact hA
  | @insert _ _ n d l e hc hn hp hk _ =>
    obtain ⟨-, hk', hother⟩ := sound_insert (n := n) hs.heap hL (hs.cur _ e).2.lt hk (by rw [hc, Ptr.orNull_null]) hn rfl
      (by simp)
    refine hA.concat hk hk' hother (fun e' le hke b hb => ?_) ?_
    · rw [field_setAfter (fun _ _ => rfl) fun _ _ => rfl, field_append_of_lt n (hs.heap.kids_filled hke b hb).lt]
    · rw [field_setAfter (fun _ _ => rfl) fun _ _ => rfl, field_append_self, hp]
  | @remove _ _ d l v vn e hv hg _ =>
    exact hA.sublist (kids_cut_sublist hs.heap hL (hs.cur _ e).2.lt hv hg) fun _ _ _ _ _ =>
      field_cut (fun _ _ => rfl) fun _ _ => rfl
  | unlinked hr hu => exact hu.agree hs.heap hL hA (hmv _ _ _ rfl hr)
  | @move _ _ x h₁ d new l hr hu hd ht hk =>
    have hx := hmv _ _ _ rfl hr
    have h₁A := hu.agree hs.heap hL hA hx
    have h0 := hu.next_null hs.heap hL hx
    obtain ⟨h1, h2, xn, par, hg, -⟩ := hu.sound hs.heap hL hx.loose
    have hm : Chain (links h₁).next (.node x) [x] := ⟨rfl, h0⟩
    have hxlt : x < h₁.length := by
      obtain ⟨t, ht⟩ := exists_field Node.type (lt_of_get hg)
      exact lt_of_field ((hu.extends hs.heap).type ht)
    obtain ⟨-, hk', hother⟩ := sound_move (p := .node d) (hu.shaped hs.heap) h1 (lt_of_field ht) hk h2 hm new
    refine h₁A.concat hk hk' hother (fun e le hke b hb => ?_) ?_
    · refine field_move_of_ne (fun _ _ => rfl) (fun _ _ => rfl) ?_
      rintro rfl
      exact h2 [b] hm b (by simp) e le hke hb
    · have hfield : field Node.parent (rename (setAfter (setParent h₁ x (.node d)) d l (.node x)) x new) x =
          field Node.parent (setParent h₁ x (.node d)) x := by
        cases new with
        | none => exact field_setAfter (fun _ _ => rfl) fun _ _ => rfl
        | some new => exact (field_setName fun _ _ => rfl).trans (field_setAfter (fun _ _ => rfl) fun _ _ => rfl)
      rw [hfield, field_setParent_parent]
      exact .inl ⟨rfl, hxlt, rfl⟩
  | orphan hr hx =>
    refine hA.sublist (fun e le he => ⟨le, ?_, .refl _⟩) fun e le hke b hb =>
      field_append_of_lt _ (hs.heap.kids_filled hke b hb).lt
    rwa [links_append rfl rfl] at he
  | copy hr _ hd ht _ => exact absurd ht (hcp _ _ _ _ _ _ rfl hr hd)

theorem agree_fresh (garbage : ℕ → Node) : Agree (fresh garbage).heap := by
  intro d l hk n hn
  have h0 : (links (fresh garbage).heap).Kids d [] := by
    show (links (fresh garbage).heap).child d = .null
    cases d <;> simp [links, field, fresh]
  rw [hk.unique h0] at hn
  cases hn

/-- A node below the current directory leads back to it. -/
theorem cd_back (hA : Agree s.heap) {name : CStr} (hslash : slash ∉ name.bytes) (hdot : name ≠ dot)
    (hdotdot : name ≠ dotdot) (h : Step s (.cd name) (lit "0").z s')
    (hL : (links s.heap).Sound) : Step s' (.cd dotdot) (lit "0").z s := by
  rcases step_cd_iff.1 h with ⟨-, e, -⟩ | ⟨q, hw, -, rfl⟩
  · exact absurd e (by decide)
  · rw [fields_of_not_mem hslash] at hw
    rcases resolve_cons.1 (cdWalk_eq_some hw) with ⟨e, -⟩ | ⟨e, -⟩ | ⟨-, -, a, n, b, m, e, ha, hf, hb, -, hr⟩
    · exact absurd e hdotdot
    · exact absurd e hdot
    · cases hr
      obtain ⟨l, hl, -⟩ := hf
      obtain ⟨r, hrest⟩ := hL.rest b
      have hne : n.child.orNull = n.child := by
        refine Ptr.orNull_of_ne fun e => ?_
        rw [e] at hl
        cases l with
        | nil => cases hl
        | cons b l => cases hl.1
      have hk : (links s.heap).Kids a (l ++ b :: r) := by
        rw [Links.Kids, links_child_of_get ha, hne]
        exact chain_append.2 ⟨_, hl, rfl, hrest⟩
      have hp := hA a _ hk b (by simp)
      rw [field_of_get hb, Option.some.injEq] at hp
      refine step_cd_iff.2 (Or.inr ⟨s.cur, ?_, rfl, rfl⟩)
      have hfields : fields slash dotdot = [dotdot] := by decide
      simp only [hfields, cdWalk, if_pos, deref_node s.heap hb]
      show Except.ok (some m.parent) = _
      rw [hp, e]

end

/-- **Parent links agree with child lists** in every run whose commands have room, that carries out no `cp` and whose
`mv` commands unlink their sources alone, from where they stand; there `cd name` and `cd ..` lead back. -/
theorem parents_agree {garbage : ℕ → Node} {cs : List Cmd} {s : Mem}
    (h : Run (fun s c => Room s c ∧ MvAlone s c ∧ CpRejected s c) (fresh garbage) cs s) :
    (∀ d l, (links s.heap).Kids d l → ∀ n ∈ l, field Node.parent s.heap n = some (.node d)) ∧
      ∀ name s', slash ∉ name.bytes → name ≠ dot → name ≠ dotdot → Step s (.cd name) (lit "0").z s' →
        Step s' (.cd dotdot) (lit "0").z s := by
  have hinv := h.inv (fun s => Typed s ∧ (links s.heap).Sound ∧ Agree s.heap)
    ⟨typed_fresh garbage, sound_fresh garbage, agree_fresh garbage⟩ fun s c out s' ⟨hs, hL, hA⟩ ⟨_, hmv, hcp⟩ hst =>
      ⟨hs.step hst, sound_step hs hL hmv.ok hst, agree_step hs hL hA hmv hcp hst⟩
  obtain ⟨-, hL, hA⟩ := hinv
  exact ⟨hA, fun name s' hslash hdot hdotdot hst => cd_back hA hslash hdot hdotdot hst hL⟩

theorem parents_agree_moved : ∃ s ∈ serve (fresh zeroed) [.mkdir (lit "a"), .mkdir (lit "d")],
    ∃ s' ∈ serve s [.mv (lit "a") (lit "d")], (links s'.heap).Kids 2 [1] ∧
      field Node.parent s'.heap 1 = some (.node 2) := by
  obtain ⟨s, hs, hk, hp, hw, s', hs', hk'⟩ : ∃ s ∈ serve (fresh zeroed) [.mkdir (lit "a"), .mkdir (lit "d")],
      (links s.heap).Kids home [1, 2] ∧ field Node.parent s.heap 1 = some (.node home) ∧
        walkSource s.heap (fields slash (lit "a")) s.cur = .ok (some (.node 1)) ∧
        ∃ s' ∈ serve s [.mv (lit "a") (lit "d")], (links s'.heap).Kids 2 [1] := by decide
  have hr : Run (fun s c => Room s c ∧ MvAlone s c ∧ CpRejected s c) (fresh zeroed)
      [.mkdir (lit "a"), .mkdir (lit "d")] s :=
    Run.nil.serve (fun c hc s => ⟨room_mkdirs [lit "a", lit "d"] (by decide) c hc s, by revert c; simp [MvAlone, CpRejected]⟩) hs
  have hok : MvAlone s (.mv (lit "a") (lit "d")) := by
    intro source destination y e hy
    cases e
    cases hy.unique (walkSource_eq_some hw)
    exact Or.inl ⟨home, [1, 2], hp, hk, by simp⟩
  have hcp : CpRejected s (.mv (lit "a") (lit "d")) := fun _ _ _ _ _ _ e => by cases e
  exact ⟨s, hs, s', hs', hk', (parents_agree (hr.snoc_serve ⟨room_mv (by decide), hok, hcp⟩ hs')).1 2 [1] hk' 1 (by simp)⟩

/-- After `cp a d` the parent of `a` is `d` and the copy has none: `cd a` and `cd ..` lead to `d`. -/
theorem parents_disagree : ∃ s, Reachable s ∧ (links s.heap).Kids home [1, 2] ∧
    field Node.parent s.heap 1 = some (.node 2) ∧ (links s.heap).Kids 2 [3] ∧
    field Node.parent s.heap 3 = some .unassigned ∧ s.cur = .node home ∧
    ∃ s' ∈ serve s [.cd (lit "a"), .cd dotdot], s'.cur = .node 2 := by
  obtain ⟨s, hs, h⟩ : ∃ s ∈ serve (fresh zeroed) [.mkdir (lit "a"), .mkdir (lit "d"), .cp (lit "a") (lit "d") (lit "x")],
      (links s.heap).Kids home [1, 2] ∧ field Node.parent s.heap 1 = some (.node 2) ∧ (links s.heap).Kids 2 [3] ∧
      field Node.parent s.heap 3 = some .unassigned ∧ s.cur = .node home ∧
      ∃ s' ∈ serve s [.cd (lit "a"), .cd dotdot], s'.cur = .node 2 := by decide
  exact ⟨s, reachable_serve hs, h⟩

end NetProg.NameServer
