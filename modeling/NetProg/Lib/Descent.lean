import NetProg.Lib.SiblingForest

/-!
# Descendants

`L.Under r a`: `a` is `r` or stands below it, down the child chains.  From a root that no link leads to
(`L.Rooted r`) this is what the links reach (`Rooted.reach_iff`), every node has one owner, and no node is below itself
(`Rooted.not_below_self`).

Moving a subtree cuts a node `x` out of one chain and links it in last on the chain of `d`.  `Rooted.move_iff_cut` and
`Rooted.move_iff_loose` say when the nodes under the root are the same before and after.
-/

namespace NetProg.Lib.Links

variable {α : Type} {L L' L₁ L₂ : Links α} {r a b d e x v par : α} {l l' m s ld : List α} {p q : Ptr α}

/-- `a` stands on the child chain of `d`. -/
def Child (L : Links α) (d a : α) : Prop := ∃ l, L.Kids d l ∧ a ∈ l

/-- `a` is `r` or stands below it. -/
def Under (L : Links α) : α → α → Prop := Relation.ReflTransGen L.Child

/-- No link leads to `r`, and none away from it but to its children. -/
structure Rooted (L : Links α) (r : α) : Prop where
  child : ∀ a, L.child a ≠ .node r
  next : ∀ a, L.next a ≠ .node r
  last : L.next r = .null

theorem Kids.child_iff (hd : L.Kids d l) : L.Child d a ↔ a ∈ l :=
  ⟨fun ⟨_, hk, ha⟩ => hd.unique hk ▸ ha, fun ha => ⟨l, hd, ha⟩⟩

theorem Sound.owner_unique (hL : L.Sound) (h : L.Child d a) (h' : L.Child e a) : d = e := by
  obtain ⟨l, hl, ha⟩ := h
  obtain ⟨l', hl', ha'⟩ := h'
  exact hL.disjoint hl hl' ha ha'

theorem off_iff : L.Off x ↔ ∀ e, ¬ L.Child e x :=
  ⟨fun h e ⟨l, hl, hx⟩ => h e l hl hx, fun h e l hl hx => h e ⟨l, hl, hx⟩⟩

theorem Rooted.not_mem (hr : L.Rooted r) : ∀ {l : List α} {p : Ptr α}, Seg L.next p l q → p ≠ .node r → r ∉ l
  | [], _, _, _ => by simp
  | a :: l, p, h, hp => by
    intro hmem
    rcases List.mem_cons.1 hmem with rfl | hmem
    · exact hp h.1
    · exact hr.not_mem h.2 (hr.next a) hmem

theorem Rooted.off (hr : L.Rooted r) : L.Off r := fun d _ hk hmem => hr.not_mem hk (hr.child d) hmem

section Assignments

variable [DecidableEq α]

theorem Rooted.setAfter (hr : L.Rooted r) (hl : r ∉ l) (hp : p ≠ .node r) : (L.setAfter d l p).Rooted r := by
  rcases List.eq_nil_or_concat' l with rfl | ⟨l, a, rfl⟩
  · refine ⟨fun b => ?_, hr.next, hr.last⟩
    by_cases hb : b = d
    · subst hb; simpa using hp
    · simpa [Function.update_of_ne hb] using hr.child b
  · rw [setAfter_concat]
    have hra : r ≠ a := fun e => hl (by simp [e])
    refine ⟨hr.child, fun b => ?_, by simpa [Function.update_of_ne hra] using hr.last⟩
    by_cases hb : b = a
    · subst hb; simpa using hp
    · simpa [Function.update_of_ne hb] using hr.next b

theorem Rooted.clear (hr : L.Rooted r) : (L.clear x).Rooted r := by
  refine ⟨hr.child, fun b => ?_, ?_⟩
  · by_cases hb : b = x
    · subst hb; simp [Links.clear]
    · simpa [Links.clear, Function.update_of_ne hb] using hr.next b
  · by_cases hb : r = x
    · subst hb; simp [Links.clear]
    · simpa [Links.clear, Function.update_of_ne hb] using hr.last

end Assignments

/-! ### What the links reach -/

theorem reach_of_seg : ∀ {l : List α} {a : α}, Seg L.next (.node a) l p → ∀ b ∈ l, L.Reach a b
  | [], _, _, _, hb => by simp at hb
  | c :: l, a, h, b, hb => by
    obtain ⟨e, h⟩ := h
    cases e
    rcases List.mem_cons.1 hb with rfl | hb
    · exact .refl
    · cases l with
      | nil => simp at hb
      | cons c' l =>
        exact Relation.ReflTransGen.head (Or.inr h.1) (reach_of_seg (l := c' :: l) ⟨rfl, h.2⟩ b hb)

theorem Child.reach (h : L.Child d a) : L.Reach d a := by
  obtain ⟨l, hk, ha⟩ := h
  cases l with
  | nil => simp at ha
  | cons c l =>
    exact Relation.ReflTransGen.head (Or.inl hk.1) (reach_of_seg (l := c :: l) (p := .null) ⟨rfl, hk.2⟩ a ha)

/-- From a root the links reach what stands below it. -/
theorem Rooted.reach_iff (hL : L.Sound) (hr : L.Rooted r) : L.Reach r a ↔ L.Under r a := by
  constructor
  · intro h
    induction h with
    | refl => exact .refl
    | @tail b c _ hbc ih =>
      rcases hbc with hbc | hbc
      · obtain ⟨l, hl⟩ := hL.rest c
        exact ih.tail ⟨c :: l, ⟨hbc, hl⟩, by simp⟩
      · rcases Relation.ReflTransGen.cases_tail ih with rfl | ⟨d, hd, l, hk, hb⟩
        · rw [hr.last] at hbc
          cases hbc
        · -- the next of a node stands on the same chain
          obtain ⟨l₁, l₂, rfl⟩ := List.append_of_mem hb
          have hs := Chain.suffix hk
          rw [hbc] at hs
          cases l₂ with
          | nil => cases hs
          | cons c' l₂ =>
            obtain ⟨e, -⟩ := hs
            cases e
            exact hd.tail ⟨_, hk, by simp⟩
  · intro h
    induction h with
    | refl => exact .refl
    | tail _ hbc ih => exact ih.trans hbc.reach

/-! ### One way up -/

theorem Rooted.under_of_child (hL : L.Sound) (hr : L.Off r) (ha : L.Under r a) (h : L.Child e a) : L.Under r e := by
  rcases Relation.ReflTransGen.cases_tail ha with rfl | ⟨e', he', h'⟩
  · exact absurd h (off_iff.1 hr e)
  · rwa [hL.owner_unique h h']

theorem Rooted.under_of_under (hL : L.Sound) (hr : L.Off r) (ha : L.Under r a) (h : L.Under b a) : L.Under r b := by
  induction h with
  | refl => exact ha
  | tail _ hbc ih => exact ih (Rooted.under_of_child hL hr ha hbc)

/-- **No node below the root is below itself.** -/
theorem Rooted.not_below_self (hL : L.Sound) (hr : L.Off r) (ha : L.Under r a) : ¬ Relation.TransGen L.Child a a := by
  induction ha with
  | refl =>
    intro h
    obtain ⟨b, -, hb⟩ := Relation.TransGen.tail'_iff.1 h
    exact off_iff.1 hr b hb
  | @tail b c _ hbc ih =>
    intro h
    obtain ⟨e, he, hec⟩ := Relation.TransGen.tail'_iff.1 h
    rw [hL.owner_unique hec hbc] at he
    exact ih (Relation.TransGen.head' hbc he)

/-! ### One chain changes -/

/-- Only the chain of `d` differs: it is `l` in `L` and `l'` in `L'`. -/
structure Rechained (L L' : Links α) (d : α) (l l' : List α) : Prop where
  before : L.Kids d l
  after : L'.Kids d l'
  other : ∀ e le, e ≠ d → (L.Kids e le ↔ L'.Kids e le)

theorem Rechained.child_iff_of_ne (h : Rechained L L' d l l') (he : e ≠ d) : L.Child e a ↔ L'.Child e a :=
  exists_congr fun le => and_congr_left' (h.other e le he)

/-- A chain that does not belong to a node under `r` may change. -/
theorem Rechained.under_iff (h : Rechained L L' d l l') (hd : ¬ L.Under r d) : L'.Under r a ↔ L.Under r a := by
  constructor
  · intro ha
    induction ha with
    | refl => exact .refl
    | @tail b c _ hbc ih =>
      have hne : b ≠ d := fun e => hd (e ▸ ih)
      exact ih.tail ((h.child_iff_of_ne hne).2 hbc)
  · intro ha
    induction ha with
    | refl => exact .refl
    | @tail b c hb hbc ih =>
      have hne : b ≠ d := fun e => hd (e ▸ hb)
      exact ih.tail ((h.child_iff_of_ne hne).1 hbc)

theorem Rechained.symm (h : Rechained L L' d l l') : Rechained L' L d l' l :=
  ⟨h.after, h.before, fun e le he => (h.other e le he).symm⟩

/-- A chain that becomes longer keeps its nodes. -/
theorem Rechained.child_mono (h : Rechained L L' d l l') (hl : l ⊆ l') (hbc : L.Child b e) : L'.Child b e := by
  by_cases hne : b = d
  · subst hne
    exact h.after.child_iff.2 (hl (h.before.child_iff.1 hbc))
  · exact (h.child_iff_of_ne hne).1 hbc

/-- A chain that becomes longer takes nothing away. -/
theorem Rechained.under_mono (h : Rechained L L' d l l') (hl : l ⊆ l') (ha : L.Under r a) : L'.Under r a :=
  Relation.ReflTransGen.mono (fun _ _ => h.child_mono hl) _ _ ha

/-- Linking `x` in last on the chain of `d` makes it a child of `d`, and changes nothing else. -/
theorem Rechained.child_concat_iff (h : Rechained L L' d l (l ++ [x])) :
    L'.Child e a ↔ L.Child e a ∨ e = d ∧ a = x := by
  by_cases hne : e = d
  · subst hne
    rw [h.after.child_iff, h.before.child_iff, List.mem_append, List.mem_singleton]
    simp
  · rw [← h.child_iff_of_ne hne]
    simp [hne]

/-- Cutting `x` out of a chain under the root leaves what is not under `x`. -/
theorem Rechained.under_cut_iff (h : Rechained L L' d (l ++ x :: m) (l ++ m)) (hL : L.Sound) (hr : L.Off r)
    (hx : L'.Off x) (hxr : x ≠ r) : L'.Under r a ↔ L.Under r a ∧ ¬ L.Under x a := by
  have hback {b c : α} (hbc : L'.Child b c) : L.Child b c :=
    h.symm.child_mono (List.Sublist.append_left (List.sublist_cons_self x m) l).subset hbc
  constructor
  · intro ha
    induction ha with
    | refl =>
      refine ⟨.refl, fun hxa => ?_⟩
      rcases Relation.ReflTransGen.cases_tail hxa with e | ⟨b, -, hb⟩
      · exact hxr e.symm
      · exact off_iff.1 hr b hb
    | @tail b c _ hbc ih =>
      refine ⟨ih.1.tail (hback hbc), fun hxc => ?_⟩
      rcases Relation.ReflTransGen.cases_tail hxc with rfl | ⟨e, he, hec⟩
      · exact off_iff.1 hx b hbc
      · rw [hL.owner_unique hec (hback hbc)] at he
        exact ih.2 he
  · rintro ⟨ha, hxa⟩
    induction ha with
    | refl => exact .refl
    | @tail b c _ hbc ih =>
      have hcx : c ≠ x := fun e => hxa (e ▸ .refl)
      refine (ih fun hb => hxa (hb.tail hbc)).tail ?_
      by_cases hne : b = d
      · subst hne
        have := h.before.child_iff.1 hbc
        refine h.after.child_iff.2 ?_
        simp only [List.mem_append, List.mem_cons] at this ⊢
        tauto
      · exact (h.child_iff_of_ne hne).1 hbc

/-! ### Moving a node -/

section Move

variable (hL : L.Sound) (hr : L.Off r) (hxr : x ≠ r)

include hxr in
theorem not_under_of_off (hx : L.Off x) : ¬ L.Under r x := by
  intro h
  rcases Relation.ReflTransGen.cases_tail h with e | ⟨b, -, hb⟩
  · exact hxr e
  · exact off_iff.1 hx b hb

include hL hr hxr

/-- A node that stands on no chain is linked in on the chain of `d`. -/
theorem Rooted.move_iff_loose (h : Rechained L L₂ d ld (ld ++ x :: m)) (hx : L.Off x) :
    (∀ a, L₂.Under r a ↔ L.Under r a) ↔ (L.Under r x ↔ L.Under r d ∧ ¬ L.Under x d) := by
  have hxn := not_under_of_off hxr hx
  constructor
  · intro hall
    refine iff_of_false hxn fun hd => hxn ?_
    have hd₂ := h.under_mono (List.subset_append_left _ _) hd.1
    exact (hall x).1 (hd₂.tail (h.after.child_iff.2 (by simp)))
  · intro hiff a
    refine h.under_iff fun hd => hxn (hiff.2 ⟨hd, fun hxd => hxn ?_⟩)
    exact Rooted.under_of_under hL hr hd hxd

end Move

section Cut

variable (hL : L.Sound) (hr : L.Off r) (hxr : x ≠ r) (h₁ : Rechained L L₁ par (l ++ v :: s) (l ++ m))
  (h₂ : Rechained L₁ L₂ d ld (ld ++ [x])) (hin : (∃ t, v :: s = t ++ x :: m) ∨ ∀ a ∈ x :: m, L.Off a)

include h₁ in
/-- The first node that is cut off is a child of the owner of the chain, and stands on it once. -/
theorem Rechained.child_first : L.Child par v ∧ v ∉ l ∧ v ∉ s := by
  have hnd := (Chain.nodup h₁.before : (l ++ v :: s).Nodup)
  simp only [List.nodup_append, List.nodup_cons, List.mem_cons] at hnd
  exact ⟨h₁.before.child_iff.2 (by simp), fun hl => hnd.2.2 v hl v (Or.inl rfl) rfl, hnd.2.1.1⟩

include h₁ hin in
/-- Where the node itself is the first that is cut off, nothing else is. -/
theorem Rechained.rest_eq (hv : v = x) : s = m := by
  subst hv
  obtain ⟨hvc, -, hvs⟩ := h₁.child_first
  rcases hin with ⟨t, et⟩ | hoff
  · cases t with
    | nil => exact (List.cons.inj et).2
    | cons y t =>
      have hs : s = t ++ v :: m := (List.cons.inj et).2
      exact absurd (by simp [hs]) hvs
  · exact absurd hvc (off_iff.1 (hoff v (by simp)) par)

include h₁ hin in
/-- Another node that is the first to be cut off does not stand behind `x`. -/
theorem Rechained.first_notMem (hne : v ≠ x) : v ∉ m := by
  obtain ⟨hvc, -, hvs⟩ := h₁.child_first
  intro hm
  rcases hin with ⟨t, et⟩ | hoff
  · cases t with
    | nil => exact hne (List.cons.inj et).1
    | cons y t =>
      have hs : s = t ++ x :: m := (List.cons.inj et).2
      exact hvs (by simp [hs, hm])
  · exact off_iff.1 (hoff v (List.mem_cons_of_mem _ hm)) par hvc

include h₁ h₂ hin hL in
/-- No chain takes up another node that is the first to be cut off. -/
theorem Rechained.off_first (hne : v ≠ x) : L₂.Off v := by
  obtain ⟨hvc, hvl, -⟩ := h₁.child_first
  rw [off_iff]
  intro e he
  have he₁ : L₁.Child e v := (h₂.child_concat_iff.1 he).resolve_right fun h => hne h.2
  by_cases hep : e = par
  · subst hep
    rcases List.mem_append.1 (h₁.after.child_iff.1 he₁) with hl | hm
    · exact hvl hl
    · exact h₁.first_notMem hin hne hm
  · exact hep (hL.owner_unique ((h₁.child_iff_of_ne hep).2 he₁) hvc)

include h₁ h₂ hL hr in
/-- The subtree of the node moves with it. -/
theorem Rechained.under_moved (hp : L.Under r par) (hv : v = x) (ha : L.Under x a) : L₂.Under x a := by
  subst hv
  obtain ⟨hvc, -, -⟩ := h₁.child_first
  have hnp (b : α) (hb : L.Under v b) : b ≠ par := by
    rintro rfl
    exact Rooted.not_below_self hL hr (hp.tail hvc) (Relation.TransGen.tail' hb hvc)
  induction ha with
  | refl => exact .refl
  | @tail b c hb hbc ih => exact ih.tail (h₂.child_concat_iff.2 (.inl ((h₁.child_iff_of_ne (hnp b hb)).1 hbc)))

include h₁ hin hL hr hxr in
/-- Where the node is under the root, so is the owner of the chain that is cut. -/
theorem Rechained.under_par (hx : L.Under r x) : L.Under r par := by
  rcases Relation.ReflTransGen.cases_tail hx with e | ⟨e, he, hex⟩
  · exact absurd e hxr
  · rcases hin with ⟨t, et⟩ | hoff
    · have hpar : L.Child par x := h₁.before.child_iff.2 (by rw [et]; simp)
      exact Rooted.under_of_child hL hr hx hpar
    · exact absurd hex (off_iff.1 (hoff x (by simp)) e)

include h₁ h₂ hin hL hr hxr in
/-- **Moving a node.**  It is cut out of the chain of `par` together with the nodes from `v` on that stand before it, and
linked in on the chain of `d`.  The nodes under the root are the same afterwards if and only if nothing is cut off with
it, and it goes from under the root to under the root but not to under itself. -/
theorem Rooted.move_iff_cut (hx₁ : L₁.Off x) (hL₂ : L₂.Sound) (hr₂ : L₂.Off r) :
    (∀ a, L₂.Under r a ↔ L.Under r a) ↔
      (L.Under r par → v = x) ∧ (L.Under r x ↔ L.Under r d ∧ ¬ L.Under x d) := by
  obtain ⟨hvc, -, -⟩ := h₁.child_first
  have hdx : L₂.Child d x := h₂.child_concat_iff.2 (.inr ⟨rfl, rfl⟩)
  have hsub {a : α} (ha : L₁.Under r a) : L₂.Under r a := h₂.under_mono (List.subset_append_left _ _) ha
  constructor
  · intro hall
    have hfirst : L.Under r par → v = x := by
      intro hp
      by_contra hne
      have hvr : v ≠ r := by
        rintro rfl
        exact off_iff.1 hr par hvc
      exact not_under_of_off hvr (h₁.off_first hL h₂ hin hne) ((hall v).2 (hp.tail hvc))
    refine ⟨hfirst, fun hx => ?_, fun hd => ?_⟩
    · have hx₂ := (hall x).2 hx
      have hp := h₁.under_par hL hr hxr hin hx
      refine ⟨(hall d).1 (Rooted.under_of_child hL₂ hr₂ hx₂ hdx), fun hxd => ?_⟩
      have hxd₂ := h₁.under_moved hL hr h₂ hp (hfirst hp) hxd
      exact Rooted.not_below_self hL₂ hr₂ hx₂ (Relation.TransGen.tail' hxd₂ hdx)
    · by_cases hp : L.Under r par
      · exact hp.tail (hfirst hp ▸ hvc)
      · exact (hall x).1 ((hsub ((h₁.under_iff hp).2 hd.1)).tail hdx)
  · rintro ⟨hfirst, hiff⟩ a
    by_cases hp : L.Under r par
    · -- the node is cut off alone, and linked in elsewhere under the root
      have hv := hfirst hp
      have hs := h₁.rest_eq hin hv
      subst hv hs
      have hx := hp.tail hvc
      have hcut := fun a => h₁.under_cut_iff (a := a) hL hr hx₁ hxr
      have hx₂ : L₂.Under r v := (hsub ((hcut d).2 (hiff.1 hx))).tail hdx
      constructor
      · intro ha
        induction ha with
        | refl => exact .refl
        | @tail b c _ hbc ih =>
          rcases h₂.child_concat_iff.1 hbc with hbc | ⟨-, rfl⟩
          · exact ih.tail (h₁.symm.child_mono (List.Sublist.append_left (List.sublist_cons_self v s) l).subset hbc)
          · exact hx
      · intro ha
        by_cases hxa : L.Under v a
        · exact hx₂.trans (h₁.under_moved hL hr h₂ hp rfl hxa)
        · exact hsub ((hcut a).2 ⟨ha, hxa⟩)
    · -- neither is in reach
      have hxn : ¬ L.Under r x := fun hx => hp (h₁.under_par hL hr hxr hin hx)
      have hdn : ¬ L₁.Under r d := by
        rw [h₁.under_iff hp]
        exact fun hd => hxn (hiff.2 ⟨hd, fun hxd => hxn (Rooted.under_of_under hL hr hd hxd)⟩)
      rw [h₂.under_iff hdn, h₁.under_iff hp]

end Cut

end NetProg.Lib.Links
