import NetProg.NameServer.Parents

/-!
# Names

`Distinct h`: the nodes of a child chain bear different names, so a lookup reaches each of them (`lookup_reaches`).
`tobigfs`, and `mv` and `cp` to a new name, look for the name first; `mkdir`, and `mv` and `cp` into an existing
directory, do not, and keep `Distinct` only if the name happens to be free (`NameFree`).
-/

namespace NetProg.NameServer

open NetProg.Lib

/-- The nodes of every child chain bear different names. -/
def Distinct (h : Heap) : Prop := ∀ d l, (links h).Kids d l → (l.map (field Node.name h)).Nodup

/-- The name under which a command links a node in without looking for it is free in the directory. -/
structure NameFree (s : Mem) (c : Cmd) : Prop where
  mkdir : ∀ dirname d l, c = .mkdir dirname → s.cur = .node d → (links s.heap).Kids d l → NotNamed s.heap dirname l
  mv : ∀ source destination x xn h₁ d l, c = .mv source destination →
    Resolve s.heap anyNode s.cur (fields slash source) (.node x) → s.heap[x]? = some xn → Unlinked s.heap x h₁ →
    Dest h₁ s.cur (fields slash destination) d none → field Node.type h₁ d = some .directory →
    (links h₁).Kids d l → NotNamed h₁ xn.name l
  cp : ∀ source destination loc x xn d l, c = .cp source destination loc →
    Resolve s.heap anyNode s.cur (fields slash source) (.node x) → s.heap[x]? = some xn →
    Dest s.heap s.cur (fields slash destination) d none → field Node.type s.heap d = some .directory →
    (links s.heap).Kids d l → NotNamed s.heap xn.name l

section

variable {s s' : Mem} {h h' : Heap} {a b d x : ℕ} {p : Ptr ℕ} {l m : List ℕ} {n : Node} {c : Cmd} {out : List Byte}
  {t : CStr}

/-- Chains that lose nodes, or are as they were. -/
theorem Distinct.sublist (hD : Distinct h)
    (hkids : ∀ e le', (links h').Kids e le' → ∃ le, (links h).Kids e le ∧ List.Sublist le' le)
    (hold : ∀ e le, (links h).Kids e le → ∀ b ∈ le, field Node.name h' b = field Node.name h b) : Distinct h' := by
  intro e le' he
  obtain ⟨le, hk, hsub⟩ := hkids e le' he
  rw [List.map_congr_left fun b hb => hold e le hk b (hsub.subset hb)]
  exact (hsub.map _).nodup (hD e le hk)

/-- A chain that gets one more node, under a name that none of its nodes bears. -/
theorem Distinct.concat (hD : Distinct h) (hk : (links h).Kids d l) (hk' : (links h').Kids d (l ++ [x]))
    (hother : ∀ e le, e ≠ d → ((links h).Kids e le ↔ (links h').Kids e le))
    (hold : ∀ e le, (links h).Kids e le → ∀ b ∈ le, field Node.name h' b = field Node.name h b)
    (hx : field Node.name h' x = some t) (hn : NotNamed h t l) : Distinct h' := by
  intro e le he
  by_cases hne : e = d
  · subst hne
    rw [he.unique hk', List.map_append, List.map_congr_left (hold e l hk), List.nodup_append]
    refine ⟨hD e l hk, by simp, fun u hu v hv => ?_⟩
    obtain ⟨b, hb, rfl⟩ := List.mem_map.1 hu
    obtain ⟨w, hw, hwt⟩ := hn b hb
    simp only [List.map_cons, List.map_nil, List.mem_singleton] at hv
    rw [hv, hx, hw]
    exact fun e => hwt (Option.some.inj e)
  · have hke := (hother e le hne).2 he
    rw [List.map_congr_left (hold e le hke)]
    exact hD e le hke

/-- What is missing from a chain is the name of none of its nodes. -/
theorem Missing.notNamed (hm : Missing h t n.child) (hd : h[d]? = some n) (hk : (links h).Kids d l) :
    NotNamed h t l := by
  obtain ⟨l', hl', hne⟩ := hm
  rw [Links.Kids, links_child_of_get hd, hl'.orNull] at hk
  exact hk.unique hl' ▸ hne

theorem Unlinked.distinct (hs : Shaped h) (hL : (links h).Sound) (hD : Distinct h) (hu : Unlinked h x h')
    (hx : Placed h x) : Distinct h' :=
  hD.sublist (hu.kids_sublist hs hL hx) fun _ _ _ _ _ => hu.field_eq (fun _ _ => rfl) fun _ _ => rfl

theorem distinct_step (hs : Typed s) (hL : (links s.heap).Sound) (hD : Distinct s.heap) (hmv : MvAlone s c)
    (hfree : NameFree s c) (h : Step s c out s') : Distinct s'.heap := by
  cases step_cases hs h with
  | keep => exact hD
  | enter => exact hD
  | @insert _ _ n d l e hc hn hp hk hname =>
    obtain ⟨-, hk', hother⟩ := sound_insert (n := n) hs.heap hL (hs.cur _ e).2.lt hk (by rw [hc, Ptr.orNull_null]) hn rfl
      (by simp)
    have hnot : NotNamed s.heap n.name l := hname.elim (fun ec => hfree.mkdir _ d l ec e hk) And.right
    refine hD.concat hk hk' hother (fun e' le hke b hb => ?_) ?_ hnot
    · rw [field_setAfter (fun _ _ => rfl) fun _ _ => rfl, field_append_of_lt n (hs.heap.kids_filled hke b hb).lt]
    · rw [field_setAfter (fun _ _ => rfl) fun _ _ => rfl, field_append_self]
  | @remove _ _ d l v vn e hv hg _ =>
    exact hD.sublist (kids_cut_sublist hs.heap hL (hs.cur _ e).2.lt hv hg) fun _ _ _ _ _ =>
      field_cut (fun _ _ => rfl) fun _ _ => rfl
  | unlinked hr hu => exact hu.distinct hs.heap hL hD (hmv _ _ _ rfl hr)
  | @move _ _ x h₁ d new l hr hu hd ht hk =>
    have hx := hmv _ _ _ rfl hr
    have h₁D := hu.distinct hs.heap hL hD hx
    obtain ⟨h1, h2, xn, par, hg, -⟩ := hu.sound hs.heap hL hx.loose
    have hm : Chain (links h₁).next (.node x) [x] := ⟨rfl, hu.next_null hs.heap hL hx⟩
    have hxname : field Node.name h₁ x = some xn.name := by
      rw [hu.field_eq (fun _ _ => rfl) fun _ _ => rfl, field_of_get hg]
    obtain ⟨-, hk', hother⟩ := sound_move (p := .node d) (hu.shaped hs.heap) h1 (lt_of_field ht) hk h2 hm new
    have hnot : NotNamed h₁ (new.getD xn.name) l := by
      cases new with
      | none => exact hfree.mv _ _ _ _ _ _ _ rfl hr hg hu hd ht hk
      | some new =>
        obtain ⟨-, dn, -, -, -, -, hdn, hmiss⟩ := hd
        exact hmiss.notNamed hdn hk
    refine h₁D.concat (t := new.getD xn.name) hk hk' hother (fun e le hke b hb => ?_) ?_ hnot
    · refine field_move_of_ne (fun _ _ => rfl) (fun _ _ => rfl) ?_
      rintro rfl
      exact h2 [b] hm b (by simp) e le hke hb
    · cases new with
      | none =>
        exact ((field_setAfter (fun _ _ => rfl) fun _ _ => rfl).trans (field_setParent fun _ _ => rfl)).trans hxname
      | some new =>
        refine field_setName_name.2 (Or.inl ⟨rfl, ?_, rfl⟩)
        simpa using lt_of_field hxname
  | orphan hr hx =>
    refine hD.sublist (fun e le he => ⟨le, ?_, .refl _⟩) fun e le hke b hb =>
      field_append_of_lt _ (hs.heap.kids_filled hke b hb).lt
    rwa [links_append rfl rfl] at he
  | @copy _ _ loc x xn d new l _ hr hx hd ht hk =>
    obtain ⟨-, hk', hother⟩ := sound_insert (n := copyNode s xn (new.getD xn.name) loc) hs.heap hL (lt_of_field ht) hk rfl
      rfl (links_setParent (a := x) (p := .node d)) (by simp)
    have hnot : NotNamed s.heap (new.getD xn.name) l := by
      cases new with
      | none => exact hfree.cp _ _ _ _ _ _ _ rfl hr hx hd ht hk
      | some new =>
        obtain ⟨-, dn, -, -, -, -, hdn, hmiss⟩ := hd
        exact hmiss.notNamed hdn hk
    have hbase : ∀ y, field Node.name (setAfter (setParent (s.heap ++ [copyNode s xn (new.getD xn.name) loc]) x
        (.node d)) d l (.node s.heap.length)) y = field Node.name (s.heap ++ [copyNode s xn (new.getD xn.name) loc]) y :=
      fun y => (field_setAfter (fun _ _ => rfl) fun _ _ => rfl).trans (field_setParent fun _ _ => rfl)
    refine hD.concat hk hk' hother (fun e le hke b hb => ?_) ?_ hnot
    · rw [hbase, field_append_of_lt _ (hs.heap.kids_filled hke b hb).lt]
    · rw [hbase, field_append_self, copyNode]

theorem distinct_fresh (garbage : ℕ → Node) : Distinct (fresh garbage).heap := by
  intro d l hk
  have h0 : (links (fresh garbage).heap).Kids d [] := by
    show (links (fresh garbage).heap).child d = .null
    cases d <;> simp [links, field, fresh]
  rw [hk.unique h0]
  exact List.nodup_nil

/-- Where names are distinct, a lookup reaches every node. -/
theorem lookup_reaches (hs : Shaped h) (hL : (links h).Sound) (hD : Distinct h) (hd : h[d]? = some n)
    (hk : (links h).Kids d l) (ha : a ∈ l) (ht : field Node.name h a = some t) :
    lookup h t n.child = .ok (some a) := by
  have hlt : ∀ b ∈ l, b < h.length := fun b hb => (hs.kids_filled hk b hb).lt
  have hchain : Chain (links h).next n.child l := by
    have hk' := hk
    rw [Links.Kids, links_child_of_get hd] at hk'
    cases e : n.child with
    | node b => rwa [e] at hk'
    | null => rwa [e] at hk'
    | unassigned =>
      rw [e] at hk'
      have hnil : l = [] := Chain.unique hk' rfl
      rw [hnil] at ha
      cases ha
  obtain ⟨r, hr⟩ := exists_find (fun m => m.name = t) hchain hlt
    (Nat.lt_succ_of_le (length_le_of_nodup hk.nodup hlt))
  change lookup h t n.child = .ok r at hr
  rw [hr]
  cases r with
  | none =>
    obtain ⟨l', hl', hne⟩ := lookup_eq_none hr
    rw [hchain.unique hl'] at ha
    exact absurd ha (NotNamed.notMem hne ht)
  | some b =>
    obtain ⟨l₁, hl₁, hb, -⟩ := lookup_eq_some hr
    obtain ⟨r, hrest⟩ := hL.rest b
    have hl : l = l₁ ++ b :: r := hchain.unique (chain_append.2 ⟨_, hl₁, rfl, hrest⟩)
    have hbl : b ∈ l := by simp [hl]
    rw [List.inj_on_of_nodup_map (hD d l hk) ha hbl (ht.trans hb.symm)]

end

/-- **Sibling names are distinct** in every run whose commands have room, whose `mv` commands unlink their sources alone,
from where they stand, and whose `mkdir`, `mv` and `cp` commands find the name free; there a lookup by name reaches
every node. -/
theorem names_distinct {garbage : ℕ → Node} {cs : List Cmd} {s : Mem}
    (h : Run (fun s c => Room s c ∧ MvAlone s c ∧ NameFree s c) (fresh garbage) cs s) :
    (∀ d l, (links s.heap).Kids d l → ∀ a ∈ l, ∀ b ∈ l,
        field Node.name s.heap a = field Node.name s.heap b → a = b) ∧
      ∀ d n l a t, s.heap[d]? = some n → (links s.heap).Kids d l → a ∈ l → field Node.name s.heap a = some t →
        lookup s.heap t n.child = .ok (some a) := by
  obtain ⟨hs, hL, hD⟩ := h.inv (fun s => Typed s ∧ (links s.heap).Sound ∧ Distinct s.heap)
    ⟨typed_fresh garbage, sound_fresh garbage, distinct_fresh garbage⟩ fun s c out s' ⟨hs, hL, hD⟩ ⟨_, hmv, hfree⟩ hst =>
      ⟨hs.step hst, sound_step hs hL hmv.ok hst, distinct_step hs hL hD hmv hfree hst⟩
  exact ⟨fun d l hk a ha b hb e => List.inj_on_of_nodup_map (hD d l hk) ha hb e,
    fun d n l a t hd hk ha ht => lookup_reaches hs.heap hL hD hd hk ha ht⟩

theorem nameFree_mkdir {s : Mem} {dirname : CStr} {d : ℕ} {l : List ℕ} (hcur : s.cur = .node d)
    (hk : (links s.heap).Kids d l) (hn : NotNamed s.heap dirname l) : NameFree s (.mkdir dirname) where
  mkdir := by
    intro dirname' d' l' e hcur' hk'
    cases e
    rw [hcur] at hcur'
    cases hcur'
    exact hk'.unique hk ▸ hn
  mv := fun _ _ _ _ _ _ _ e => by cases e
  cp := fun _ _ _ _ _ _ _ e => by cases e

theorem names_distinct_mkdir : ∃ s ∈ serve (fresh zeroed) [.mkdir (lit "a")], ∃ s' ∈ serve s [.mkdir (lit "b")],
    (links s'.heap).Kids home [1, 2] ∧ ∀ a ∈ [1, 2], ∀ b ∈ [1, 2],
      field Node.name s'.heap a = field Node.name s'.heap b → a = b := by
  obtain ⟨s, hs, hcur, hk, hn, s', hs', hk'⟩ : ∃ s ∈ serve (fresh zeroed) [.mkdir (lit "a")], s.cur = .node home ∧
      (links s.heap).Kids home [1] ∧ field Node.name s.heap 1 = some (lit "a") ∧
      ∃ s' ∈ serve s [.mkdir (lit "b")], (links s'.heap).Kids home [1, 2] := by decide
  have h₀ : NameFree (fresh zeroed) (.mkdir (lit "a")) := nameFree_mkdir (l := []) rfl rfl (by simp [NotNamed])
  have h₁ : NameFree s (.mkdir (lit "b")) :=
    nameFree_mkdir hcur hk fun b hb => ⟨lit "a", by rw [List.mem_singleton.1 hb, hn], by decide⟩
  have hr : Run (fun s c => Room s c ∧ MvAlone s c ∧ NameFree s c) (fresh zeroed)
      [.mkdir (lit "a"), .mkdir (lit "b")] s' :=
    (Run.nil.snoc_serve ⟨room_mkdir (by decide), by simp [MvAlone], h₀⟩ hs).snoc_serve
      ⟨room_mkdir (by decide), by simp [MvAlone], h₁⟩ hs'
  exact ⟨s, hs, s', hs', hk', (names_distinct hr).1 home [1, 2] hk'⟩

/-- `mkdir a` twice. -/
theorem names_clash : ∃ s, Reachable s ∧ (links s.heap).Kids home [1, 2] ∧
    field Node.name s.heap 1 = some (lit "a") ∧ field Node.name s.heap 2 = some (lit "a") := by
  obtain ⟨s, hs, h⟩ : ∃ s ∈ serve (fresh zeroed) [.mkdir (lit "a"), .mkdir (lit "a")],
      (links s.heap).Kids home [1, 2] ∧ field Node.name s.heap 1 = some (lit "a") ∧
      field Node.name s.heap 2 = some (lit "a") := by decide
  exact ⟨s, reachable_serve hs, h⟩

end NetProg.NameServer
