import Mathlib.Logic.Relation
import NetProg.Lib.Chain

/-!
# Trees as first-child and next-sibling links

A tree whose nodes hold a pointer to their first child and a pointer to their next sibling, seen through the two
pointer functions (`Links`).

* `L.Kids d l`: the child chain of `d` is finite and its nodes are `l`;
* `L.Sound`: every chain is finite and no node stands on the chains of two owners;
* `L.setAfter d l p`: the pointer behind the first nodes `l` of the chain of `d` is redirected to `p`, which is how
  a node is linked in and how one is unlinked; `Sound.append` and `Sound.unlink` say what becomes of the chains.
-/

namespace NetProg.Lib

/-- The two pointer fields of the nodes of a tree. -/
structure Links (α : Type) where
  child : α → Ptr α
  next : α → Ptr α

namespace Links

variable {α : Type}

/-- The child chain of `d`. -/
def Kids (L : Links α) (d : α) (l : List α) : Prop := Chain L.next (L.child d) l

/-- A step along one of the two links. -/
def Edge (L : Links α) (a b : α) : Prop := L.child a = .node b ∨ L.next a = .node b

/-- `b` is reached from `a` along the links. -/
def Reach (L : Links α) : α → α → Prop := Relation.ReflTransGen L.Edge

/-- Every chain is finite, and no node stands on the chains of two owners. -/
structure Sound (L : Links α) : Prop where
  kids : ∀ d, ∃ l, L.Kids d l
  rest : ∀ a, ∃ l, Chain L.next (L.next a) l
  disjoint : ∀ {d d' l l' a}, L.Kids d l → L.Kids d' l' → a ∈ l → a ∈ l' → d = d'

/-- `x` stands on no child chain. -/
def Off (L : Links α) (x : α) : Prop := ∀ d l, L.Kids d l → x ∉ l

theorem Kids.unique {L : Links α} {d : α} {l l' : List α} (h : L.Kids d l) (h' : L.Kids d l') : l = l' :=
  Chain.unique h h'

/-- Every walk that starts at a link of the tree is finite. -/
theorem Sound.walk {L : Links α} (hL : L.Sound) {a : α} : ∃ l, Chain L.next (.node a) l := by
  obtain ⟨l, hl⟩ := hL.rest a
  exact ⟨a :: l, rfl, hl⟩

variable [DecidableEq α]

instance (L : Links α) (d : α) (l : List α) : Decidable (L.Kids d l) :=
  inferInstanceAs (Decidable (Chain L.next (L.child d) l))

/-- The pointer behind the first nodes `l` of the chain of `d` is redirected to `p`. -/
def setAfter (L : Links α) (d : α) (l : List α) (p : Ptr α) : Links α :=
  match l.getLast? with
  | none => { L with child := Function.update L.child d p }
  | some a => { L with next := Function.update L.next a p }

/-- The `next` field of `x` is cleared. -/
def clear (L : Links α) (x : α) : Links α := { L with next := Function.update L.next x .null }

@[simp] theorem setAfter_nil (L : Links α) (d : α) (p : Ptr α) :
    L.setAfter d [] p = { L with child := Function.update L.child d p } := rfl

@[simp] theorem setAfter_concat (L : Links α) (d a : α) (l : List α) (p : Ptr α) :
    L.setAfter d (l ++ [a]) p = { L with next := Function.update L.next a p } := by
  simp [setAfter]

theorem kids_setAfter {L : Links α} {d : α} {l m m' : List α} {p : Ptr α} (hd : L.Kids d (l ++ m))
    (hp : Chain L.next p m') (h : ∀ a ∈ l, a ∉ m') : (L.setAfter d l p).Kids d (l ++ m') := by
  rcases List.eq_nil_or_concat' l with rfl | ⟨l, a, rfl⟩
  · simpa [Kids] using hp
  · rw [setAfter_concat]
    have := Chain.redirect (m := m) (by simpa [Kids] using hd) hp (h a (by simp))
    simpa [Kids] using this

theorem kids_setAfter_of_ne {L : Links α} (hL : L.Sound) {d e : α} {l m le : List α} {p : Ptr α}
    (hd : L.Kids d (l ++ m)) (he : L.Kids e le) (hne : e ≠ d) : (L.setAfter d l p).Kids e le := by
  rcases List.eq_nil_or_concat' l with rfl | ⟨l, a, rfl⟩
  · simpa [Kids, Function.update_of_ne hne] using he
  · rw [setAfter_concat]
    exact (chain_update fun ha => hne (hL.disjoint he hd ha (by simp))).2 he

/-- **Redirecting a chain.**  When the new rest `n` is finite and no other owner has any of it, the tree stays
sound and only the chain of `d` changes. -/
theorem Sound.setAfter {L : Links α} (hL : L.Sound) {d : α} {l m n : List α} {p : Ptr α}
    (hd : L.Kids d (l ++ m)) (hp : Chain L.next p n) (h : ∀ a ∈ l, a ∉ n)
    (hoff : ∀ e le, e ≠ d → L.Kids e le → ∀ a ∈ n, a ∉ le) :
    (L.setAfter d l p).Sound ∧ (L.setAfter d l p).Kids d (l ++ n) ∧
      ∀ e le, e ≠ d → (L.Kids e le ↔ (L.setAfter d l p).Kids e le) := by
  have hkd := kids_setAfter hd hp h
  have hke : ∀ e le, e ≠ d → (L.Kids e le ↔ (L.setAfter d l p).Kids e le) := by
    intro e le hne
    obtain ⟨le', he⟩ := hL.kids e
    have he' := kids_setAfter_of_ne (p := p) hL hd he hne
    exact ⟨fun h => h.unique he ▸ he', fun h => h.unique he' ▸ he⟩
  -- a node of the new chain of `d` is on no other chain
  have hdis : ∀ e le, e ≠ d → (L.setAfter d l p).Kids e le → ∀ a ∈ l ++ n, a ∉ le := by
    intro e le hne he a ha hae
    have he := (hke e le hne).2 he
    rcases List.mem_append.1 ha with ha | ha
    · exact hne (hL.disjoint he hd hae (List.mem_append_left _ ha))
    · exact hoff e le hne he a ha hae
  refine ⟨⟨fun e => ?_, fun a => ?_, ?_⟩, hkd, hke⟩
  · by_cases hne : e = d
    · subst hne; exact ⟨_, hkd⟩
    · obtain ⟨le, he⟩ := hL.kids e
      exact ⟨le, (hke e le hne).1 he⟩
  · rcases List.eq_nil_or_concat' l with rfl | ⟨l, b, rfl⟩
    · exact hL.rest a
    · rw [setAfter_concat]
      by_cases hab : a = b
      · subst hab
        exact ⟨n, by simpa using (chain_update (h a (by simp))).2 hp⟩
      · obtain ⟨la, ha⟩ := hL.rest a
        simpa [Function.update_of_ne hab] using exists_chain_redirect ha hp (h b (by simp))
  · intro e e' le le' a he he' ha ha'
    by_cases h1 : e = d
    · subst h1
      by_contra hne
      have := hkd.unique he
      subst this
      exact hdis e' le' (Ne.symm hne) he' a ha ha'
    · by_cases h2 : e' = d
      · subst h2
        have := hkd.unique he'
        subst this
        exact absurd ha (hdis e le h1 he a ha')
      · exact hL.disjoint ((hke e le h1).2 he) ((hke e' le' h2).2 he') ha ha'

theorem Sound.clear {L : Links α} (hL : L.Sound) {x : α} (hx : L.Off x) :
    (L.clear x).Sound ∧ (L.clear x).Off x ∧ ∀ e le, L.Kids e le ↔ (L.clear x).Kids e le := by
  have hk : ∀ e le, L.Kids e le ↔ (L.clear x).Kids e le := by
    intro e le
    obtain ⟨le', he⟩ := hL.kids e
    have he' : (L.clear x).Kids e le' := (chain_update (hx e le' he)).2 he
    exact ⟨fun h => h.unique he ▸ he', fun h => h.unique he' ▸ he⟩
  refine ⟨⟨fun e => ?_, fun a => ?_, ?_⟩, fun e le he => hx e le ((hk e le).2 he), hk⟩
  · obtain ⟨le, he⟩ := hL.kids e
    exact ⟨le, (hk e le).1 he⟩
  · by_cases hax : a = x
    · subst hax
      exact ⟨[], by simp [Links.clear]⟩
    · obtain ⟨la, ha⟩ := hL.rest a
      have := exists_chain_redirect (a := x) (v := .null) (m := []) ha rfl (by simp)
      simpa [Links.clear, Function.update_of_ne hax] using this
  · intro e e' le le' a he he'
    exact hL.disjoint ((hk e le).2 he) ((hk e' le').2 he')

/-- **Linking a node in**, last on the chain of `d`, with the nodes `m` behind it. -/
theorem Sound.append {L : Links α} (hL : L.Sound) {d x : α} {l m : List α} (hd : L.Kids d l)
    (hm : Chain L.next (L.next x) m) (hx : ∀ a ∈ x :: m, L.Off a) :
    (L.setAfter d l (.node x)).Sound ∧ (L.setAfter d l (.node x)).Kids d (l ++ x :: m) ∧
      ∀ e le, e ≠ d → (L.Kids e le ↔ (L.setAfter d l (.node x)).Kids e le) :=
  hL.setAfter (m := []) (n := x :: m) (by simpa using hd) ⟨rfl, hm⟩
    (fun a ha hax => hx a hax d l hd ha) fun e le _ he a ha => hx a ha e le he

/-- **Unlinking a node.**  The pointer behind `l` skips to what stands behind `x`, and the link of `x` is cleared.
The chain `l ++ s` of `d` loses the nodes of `s` that are not behind `x`. -/
theorem Sound.unlink {L : Links α} (hL : L.Sound) {d x : α} {l s m : List α} (hd : L.Kids d (l ++ s))
    (hm : Chain L.next (L.next x) m) (hx : ∀ a ∈ x :: m, ∀ e le, L.Kids e le → a ∈ le → e = d ∧ a ∈ s) :
    ((L.setAfter d l (L.next x)).clear x).Sound ∧ ((L.setAfter d l (L.next x)).clear x).Off x ∧
      ((L.setAfter d l (L.next x)).clear x).Kids d (l ++ m) ∧
      ∀ e le, e ≠ d → (L.Kids e le ↔ ((L.setAfter d l (L.next x)).clear x).Kids e le) := by
  have hdis : ∀ a ∈ x :: m, a ∉ l := by
    intro a ha hal
    have hs := (hx a ha d _ hd (List.mem_append_left _ hal)).2
    exact List.disjoint_of_nodup_append hd.nodup hal hs
  have hxm : x ∉ m := (List.nodup_cons.1 (Chain.nodup (p := .node x) ⟨rfl, hm⟩)).1
  obtain ⟨h1, h2, h3⟩ := hL.setAfter (n := m) hd hm (fun a ha ham => hdis a (List.mem_cons_of_mem _ ham) ha)
    fun e le hne he a ha hae => hne (hx a (List.mem_cons_of_mem _ ha) e le he hae).1
  have hoff : (L.setAfter d l (L.next x)).Off x := by
    intro e le he hxe
    by_cases hne : e = d
    · subst hne
      rw [he.unique h2] at hxe
      rcases List.mem_append.1 hxe with hxe | hxe
      · exact hdis x (by simp) hxe
      · exact hxm hxe
    · exact hne (hx x (by simp) e le ((h3 e le hne).2 he) hxe).1
  obtain ⟨c1, c2, c3⟩ := h1.clear hoff
  exact ⟨c1, c2, (c3 d _).1 h2, fun e le hne => (h3 e le hne).trans (c3 e le)⟩

end Links

end NetProg.Lib
