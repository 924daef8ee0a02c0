import Mathlib.Data.List.Perm.Subperm
import NetProg.NameServer.Paths

/-!
# The shape of the heap

`Shaped h`: the pointers lead to nodes of the heap whose fields are assigned (`Filled`), a node with a child is a
directory, and so is every node a field `parent` leads to.  A copy whose destination was rejected keeps its field
`child` unassigned, but no pointer leads to it.

`Shaped.of` reduces its preservation to the fields an operation changes.  The rest is what follows for the walks: they
stay inside the heap (`Shaped.seg_filled`, `Shaped.resolve_filled`), so a node allocated later does not change them
(`Shaped.resolve_append`).
-/

namespace NetProg.NameServer

open NetProg.Lib

/-- A node of the heap whose field `child` was assigned. -/
def Filled (h : Heap) (a : ℕ) : Prop := ∃ p, field Node.child h a = some p ∧ p ≠ .unassigned

/-- If `p` leads to a node, to one that is filled in. -/
def Inside (h : Heap) (p : Ptr ℕ) : Prop := ∀ a, p = .node a → Filled h a

/-- If `p` leads to a node, to a directory that is filled in. -/
def DirPtr (h : Heap) (p : Ptr ℕ) : Prop := ∀ a, p = .node a → field Node.type h a = some .directory ∧ Filled h a

/-- What a field `child` or `next` holds between two commands. -/
def Link (h : Heap) (p : Ptr ℕ) : Prop := p = .null ∨ ∃ b, p = .node b ∧ Filled h b

/-- What holds of the fields of every node. -/
structure Shaped (h : Heap) : Prop where
  child : ∀ {a p}, field Node.child h a = some p →
    p = .unassigned ∨ p = .null ∨ field Node.type h a = some .directory ∧ ∃ b, p = .node b ∧ Filled h b
  next : ∀ {a p}, field Node.next h a = some p → Link h p
  parent : ∀ {a p}, field Node.parent h a = some p → DirPtr h p

section

variable {h h' : Heap} {a b c d x k : ℕ} {p q r : Ptr ℕ} {l m : List ℕ} {n : Node} {enter : Node → Prop}

theorem lt_of_field {β : Type} {f : Node → β} {v : β} (hf : field f h a = some v) : a < h.length :=
  field_isSome.1 (by rw [hf]; rfl)

theorem exists_field {β : Type} (f : Node → β) (ha : a < h.length) : ∃ v, field f h a = some v :=
  Option.isSome_iff_exists.1 (field_isSome.2 ha)

theorem Filled.lt (ha : Filled h a) : a < h.length := by
  obtain ⟨p, hp, -⟩ := ha
  exact lt_of_field hp

theorem DirPtr.inside (hp : DirPtr h p) : Inside h p := fun a ha => (hp a ha).2

theorem Link.inside (hp : Link h p) : Inside h p := by
  rintro a rfl
  rcases hp with hp | ⟨b, e, hb⟩
  · cases hp
  · cases e; exact hb

theorem Link.ne_unassigned (hp : Link h p) : p ≠ .unassigned := by
  rintro rfl
  rcases hp with hp | ⟨b, e, -⟩
  · cases hp
  · cases e

@[simp] theorem link_null : Link h .null := Or.inl rfl

@[simp] theorem link_node : Link h (.node a) ↔ Filled h a :=
  ⟨fun hp => hp.inside a rfl, fun ha => Or.inr ⟨a, rfl, ha⟩⟩

@[simp] theorem dirPtr_node : DirPtr h (.node a) ↔ field Node.type h a = some .directory ∧ Filled h a :=
  ⟨fun hp => hp a rfl, fun ha b e => by cases e; exact ha⟩

@[simp] theorem inside_node : Inside h (.node a) ↔ Filled h a := ⟨fun hp => hp a rfl, fun ha b e => by cases e; exact ha⟩

@[simp] theorem inside_null : Inside h .null := fun a e => by cases e

theorem type_of_ne_file (ha : h[a]? = some n) (ht : n.type ≠ .file) : field Node.type h a = some .directory := by
  rw [field_of_get ha]
  cases e : n.type with
  | directory => rfl
  | file => exact absurd e ht

/-! ### Preservation -/

/-- No node of `h` loses its type or an assigned field `child` in `h'`. -/
structure Extends (h h' : Heap) : Prop where
  type : ∀ {a t}, field Node.type h a = some t → field Node.type h' a = some t
  filled : ∀ {a}, Filled h a → Filled h' a

theorem DirPtr.mono (he : Extends h h') (hp : DirPtr h p) : DirPtr h' p :=
  fun a ha => ⟨he.type (hp a ha).1, he.filled (hp a ha).2⟩

theorem Link.mono (he : Extends h h') (hp : Link h p) : Link h' p :=
  hp.imp_right fun ⟨b, e, hb⟩ => ⟨b, e, he.filled hb⟩

/-- **Preservation.**  Only the pointers that are new have to be looked at. -/
theorem Shaped.of (hs : Shaped h) (he : Extends h h')
    (hc : ∀ a p, field Node.child h' a = some p → field Node.child h a = some p ∨ p = .unassigned ∨ p = .null ∨
      field Node.type h' a = some .directory ∧ ∃ b, p = .node b ∧ Filled h' b)
    (hn : ∀ a p, field Node.next h' a = some p → field Node.next h a = some p ∨ Link h' p)
    (hp : ∀ a p, field Node.parent h' a = some p → field Node.parent h a = some p ∨ DirPtr h' p) : Shaped h' where
  child := by
    intro a p ha
    rcases hc a p ha with ha | ha
    · rcases hs.child ha with e | e | ⟨hd, b, e, hb⟩
      · exact Or.inl e
      · exact Or.inr (Or.inl e)
      · exact Or.inr (Or.inr ⟨he.type hd, b, e, he.filled hb⟩)
    · exact ha
  next := by
    intro a p ha
    rcases hn a p ha with ha | ha
    · exact (hs.next ha).mono he
    · exact ha
  parent := by
    intro a p ha
    rcases hp a p ha with ha | ha
    · exact (hs.parent ha).mono he
    · exact ha

theorem extends_append (h : Heap) (n : Node) : Extends h (h ++ [n]) where
  type := fun ha => (field_append_eq_some h n).2 (Or.inl ha)
  filled := fun ⟨p, hp, hne⟩ => ⟨p, (field_append_eq_some h n).2 (Or.inl hp), hne⟩

theorem extends_modify (g : Node → Node) (ht : ∀ n, (g n).type = n.type)
    (hc : ∀ n, n.child ≠ .unassigned → (g n).child ≠ .unassigned) : Extends h (h.modify a g) where
  type := fun hb => by rwa [field_modify_of_same g ht]
  filled := by
    rintro b ⟨p, hb, hne⟩
    by_cases hab : a = b
    · subst hab
      obtain ⟨n, hn, rfl⟩ := field_eq_some.1 hb
      exact ⟨(g n).child, by rw [field_modify_self, hn]; rfl, hc n hne⟩
    · exact ⟨p, by rwa [field_modify_of_ne g hab], hne⟩

theorem Extends.trans {h'' : Heap} (h1 : Extends h h') (h2 : Extends h' h'') : Extends h h'' where
  type := fun ha => h2.type (h1.type ha)
  filled := fun ha => h2.filled (h1.filled ha)

theorem extends_setNext : Extends h (setNext h a p) := extends_modify _ (fun _ => rfl) fun _ hn => hn

theorem extends_setParent : Extends h (setParent h a p) := extends_modify _ (fun _ => rfl) fun _ hn => hn

theorem extends_setName {s : CStr} : Extends h (setName h a s) := extends_modify _ (fun _ => rfl) fun _ hn => hn

theorem extends_setChild (hp : p ≠ .unassigned) : Extends h (setChild h a p) :=
  extends_modify _ (fun _ => rfl) fun _ _ => hp

theorem extends_setAfter (hp : p ≠ .unassigned) : Extends h (setAfter h d l p) := by
  unfold setAfter
  split
  · exact extends_setChild hp
  · exact extends_setNext

theorem extends_cut (hp : p ≠ .unassigned) : Extends h (cut h d l x p) := (extends_setAfter hp).trans extends_setNext

theorem Shaped.append (hs : Shaped h) (hc : n.child.orNull = .null) (hn : n.next = .null) (hp : DirPtr h n.parent) :
    Shaped (h ++ [n]) := by
  have he := extends_append h n
  refine hs.of he (fun a p ha => ?_) (fun a p ha => ?_) fun a p ha => ?_
  · rcases (field_append_eq_some h n).1 ha with ha | ⟨-, rfl⟩
    · exact Or.inl ha
    · refine Or.inr ?_
      cases e : n.child with
      | unassigned => exact Or.inl rfl
      | null => exact Or.inr (Or.inl rfl)
      | node b => rw [e] at hc; cases hc
  · rcases (field_append_eq_some h n).1 ha with ha | ⟨-, rfl⟩
    · exact Or.inl ha
    · exact Or.inr (Or.inl hn)
  · rcases (field_append_eq_some h n).1 ha with ha | ⟨-, rfl⟩
    · exact Or.inl ha
    · exact Or.inr (hp.mono he)

theorem Shaped.setNext (hs : Shaped h) (hp : Link h p) : Shaped (setNext h a p) := by
  refine hs.of extends_setNext (fun b q hb => ?_) (fun b q hb => ?_) fun b q hb => ?_
  · exact Or.inl (by rwa [field_setNext fun _ _ => rfl] at hb)
  · rcases field_setNext_next.1 hb with ⟨-, -, rfl⟩ | ⟨-, hb⟩
    · exact Or.inr (hp.mono extends_setNext)
    · exact Or.inl hb
  · exact Or.inl (by rwa [field_setNext fun _ _ => rfl] at hb)

theorem Shaped.setChild (hs : Shaped h) (ha : field Node.type h a = some .directory) (hp : Link h p) :
    Shaped (setChild h a p) := by
  have he : Extends h (NameServer.setChild h a p) := extends_setChild hp.ne_unassigned
  refine hs.of he (fun b q hb => ?_) (fun b q hb => ?_) fun b q hb => ?_
  · rcases field_setChild_child.1 hb with ⟨rfl, -, rfl⟩ | ⟨-, hb⟩
    · exact Or.inr (Or.inr ((hp.mono he).imp_right fun hb => ⟨he.type ha, hb⟩))
    · exact Or.inl hb
  · exact Or.inl (by rwa [field_setChild fun _ _ => rfl] at hb)
  · exact Or.inl (by rwa [field_setChild fun _ _ => rfl] at hb)

theorem Shaped.setParent (hs : Shaped h) (hp : DirPtr h p) : Shaped (setParent h a p) := by
  refine hs.of extends_setParent (fun b q hb => ?_) (fun b q hb => ?_) fun b q hb => ?_
  · exact Or.inl (by rwa [field_setParent fun _ _ => rfl] at hb)
  · exact Or.inl (by rwa [field_setParent fun _ _ => rfl] at hb)
  · rcases field_setParent_parent.1 hb with ⟨-, -, rfl⟩ | ⟨-, hb⟩
    · exact Or.inr (hp.mono extends_setParent)
    · exact Or.inl hb

theorem Shaped.setName (hs : Shaped h) {s : CStr} : Shaped (setName h a s) := by
  refine hs.of extends_setName (fun b q hb => ?_) (fun b q hb => ?_) fun b q hb => ?_
  · exact Or.inl (by rwa [field_setName fun _ _ => rfl] at hb)
  · exact Or.inl (by rwa [field_setName fun _ _ => rfl] at hb)
  · exact Or.inl (by rwa [field_setName fun _ _ => rfl] at hb)

theorem Shaped.setAfter (hs : Shaped h) (hd : field Node.type h d = some .directory) (hp : Link h p) :
    Shaped (setAfter h d l p) := by
  unfold NameServer.setAfter
  split
  · exact hs.setChild hd hp
  · exact hs.setNext hp

theorem Shaped.cut (hs : Shaped h) (hd : field Node.type h d = some .directory) (hp : Link h p) :
    Shaped (cut h d l x p) := (hs.setAfter hd hp).setNext link_null

/-! ### Walks stay inside -/

theorem Shaped.links_next (hs : Shaped h) (a : ℕ) : Link h ((links h).next a) := by
  rw [NameServer.links_next]
  cases ha : field Node.next h a with
  | none => exact link_null
  | some p => exact hs.next ha

theorem Shaped.child_inside (hs : Shaped h) (ha : h[a]? = some n) : Inside h n.child := by
  intro b e
  rcases hs.child (field_of_get ha) with h0 | h0 | ⟨-, c, hc, hf⟩
  · rw [e] at h0; cases h0
  · rw [e] at h0; cases h0
  · rw [e] at hc; cases hc; exact hf

theorem Shaped.links_child (hs : Shaped h) (a : ℕ) : Link h ((links h).child a) := by
  rw [NameServer.links_child]
  cases ha : field Node.child h a with
  | none => exact link_null
  | some p =>
    rcases hs.child ha with rfl | rfl | ⟨-, b, rfl, hb⟩
    · exact link_null
    · exact link_null
    · exact link_node.2 hb

theorem Shaped.seg_filled (hs : Shaped h) : ∀ {l : List ℕ} {p : Ptr ℕ}, Seg (links h).next p l q → Inside h p →
    (∀ a ∈ l, Filled h a) ∧ Inside h q
  | [], p, hl, hp => by
    cases hl
    exact ⟨by simp, hp⟩
  | a :: l, p, hl, hp => by
    obtain ⟨h1, h2⟩ := hs.seg_filled hl.2 (hs.links_next a).inside
    refine ⟨fun b hb => ?_, h2⟩
    rcases List.mem_cons.1 hb with rfl | hb
    · exact hp _ hl.1
    · exact h1 b hb

theorem Shaped.kids_filled (hs : Shaped h) (hk : (links h).Kids d l) : ∀ a ∈ l, Filled h a :=
  (hs.seg_filled hk (hs.links_child d).inside).1

theorem Shaped.first_filled (hs : Shaped h) {found : CStr} (hf : First h found p b) (hp : Inside h p) :
    Filled h b := by
  obtain ⟨l, hl, -, -⟩ := hf
  exact inside_node.1 (hs.seg_filled hl hp).2

theorem Shaped.resolve_filled (hs : Shaped h) {l : List CStr} (hr : Resolve h enter p l q) (hp : Inside h p) :
    Inside h q :=
  hr.pres (Inside h) (fun _ _ _ ha => (hs.parent (field_of_get ha)).inside)
    (fun _ _ _ _ _ ha ⟨_, hf⟩ _ _ => inside_node.2 (hs.first_filled hf (hs.child_inside ha))) hp

theorem Shaped.resolve_dir (hs : Shaped h) {l : List CStr} (hr : Resolve h isDirectory p l q) (hp : DirPtr h p) :
    DirPtr h q :=
  hr.pres (DirPtr h) (fun _ _ _ ha => hs.parent (field_of_get ha))
    (fun _ _ _ _ _ ha ⟨_, hf⟩ hb he => dirPtr_node.2
      ⟨by rw [field_of_get hb, he], hs.first_filled hf (hs.child_inside ha)⟩) hp

theorem Shaped.dest_filled (hs : Shaped h) {l : List CStr} {new : Option CStr} (hd : Dest h p l d new)
    (hp : Inside h p) : Filled h d := by
  cases new with
  | none => exact inside_node.1 (hs.resolve_filled hd hp)
  | some new =>
    obtain ⟨init, n, -, -, -, hr, -⟩ := hd
    exact inside_node.1 (hs.resolve_filled hr hp)

/-- A chain inside the heap has no more nodes than the heap. -/
theorem length_le_of_nodup (hnd : l.Nodup) (hl : ∀ a ∈ l, a < h.length) : l.length ≤ h.length := by
  have hsub : l ⊆ List.range h.length := fun a ha => List.mem_range.2 (hl a ha)
  simpa using (hnd.subperm hsub).length_le

theorem Shaped.lookup_of_first (hs : Shaped h) {found : CStr} (hp : Inside h p) (hf : First h found p b) :
    lookup h found p = .ok (some b) := by
  obtain ⟨l, hl, hb, hne⟩ := hf
  obtain ⟨n, hn, hname⟩ := field_eq_some.1 hb
  have hbl : b ∉ l := fun hmem => by
    obtain ⟨t, ht, hne⟩ := hne b hmem
    rw [hb] at ht
    exact hne (Option.some.inj ht).symm
  have hlen := length_le_of_nodup (hl.nodup hbl) fun a ha => ((hs.seg_filled hl hp).1 a ha).lt
  refine find_of_seg hl hn (by simpa using hname) (fun c hc => ?_) (Nat.lt_succ_of_le hlen)
  obtain ⟨t, ht, hne⟩ := hne c hc
  obtain ⟨m, hm, rfl⟩ := field_eq_some.1 ht
  exact ⟨m, hm, by simpa using hne⟩

theorem Shaped.lookup_of_missing (hs : Shaped h) {found : CStr} (hp : Inside h p) (hm : Missing h found p) :
    lookup h found p = .ok none := by
  obtain ⟨l, hl, -⟩ := id hm
  have hlt : ∀ a ∈ l, a < h.length := fun a ha => ((hs.seg_filled hl hp).1 a ha).lt
  obtain ⟨r, hr⟩ := exists_find (fun n => n.name = found) hl hlt
    (Nat.lt_succ_of_le (length_le_of_nodup hl.nodup hlt))
  change lookup h found p = .ok r at hr
  cases r with
  | none => exact hr
  | some b => exact absurd (lookup_eq_some hr) hm.not_first

/-! ### The walks that follow a path -/

/-- A path loop goes on from where the path leads. -/
theorem PathLoop.append {α : Type} {done : Ptr ℕ → α} {stop : CStr → List CStr → ℕ → α}
    {W : List CStr → Ptr ℕ → Except Fault α} (hW : PathLoop h enter done stop W) (hs : Shaped h) {l rest : List CStr}
    (hp : Inside h p) (hr : Resolve h enter p l q) : W (l ++ rest) p = W rest q := by
  induction hr with
  | nil => rfl
  | up ha _ ih => exact (hW.up ha).trans (ih (hs.parent (field_of_get ha)).inside)
  | stay _ ih => exact (hW.stay _ _).trans (ih hp)
  | down hd hdot ha hf hb he _ ih =>
    have hc := hs.child_inside ha
    exact (hW.down hd hdot ha (hs.lookup_of_first hc hf) hb he).trans (ih (inside_node.2 (hs.first_filled hf hc)))

/-! ### A node more -/

theorem links_append_next (hn : n.next = .null) : (links (h ++ [n])).next = (links h).next := by
  funext a
  rcases Nat.lt_trichotomy a h.length with hlt | rfl | hlt
  · rw [links_next, field_append_of_lt n hlt]; rfl
  · simp [links_next, field, hn]
  · have h1 : (h ++ [n])[a]? = none := by simp; omega
    have h2 : h[a]? = none := by simp; omega
    simp [links_next, field, h1, h2]

theorem get_append_of_lt (n : Node) (ha : a < h.length) : (h ++ [n])[a]? = h[a]? := by
  rw [List.getElem?_append_left ha]

theorem Shaped.first_append (hs : Shaped h) (hn : n.next = .null) {found : CStr} (hp : Inside h p) :
    First (h ++ [n]) found p b ↔ First h found p b := by
  refine exists_congr fun l => ?_
  rw [links_append_next hn]
  refine and_congr_right fun hl => ?_
  obtain ⟨hlt, hq⟩ := hs.seg_filled hl hp
  rw [field_append_of_lt n (inside_node.1 hq).lt]
  exact and_congr_right' (forall₂_congr fun c hc => by rw [field_append_of_lt n (hlt c hc).lt])

theorem Shaped.missing_append (hs : Shaped h) (hn : n.next = .null) {found : CStr} (hp : Inside h p) :
    Missing (h ++ [n]) found p ↔ Missing h found p := by
  refine exists_congr fun l => ?_
  rw [links_append_next hn]
  refine and_congr_right fun hl => ?_
  obtain ⟨hlt, -⟩ := hs.seg_filled hl hp
  exact forall₂_congr fun c hc => by rw [field_append_of_lt n (hlt c hc).lt]

/-- A node no pointer leads to changes no path. -/
theorem Shaped.resolve_append (hs : Shaped h) (hn : n.next = .null) : ∀ {l : List CStr} {p : Ptr ℕ}, Inside h p →
    (Resolve (h ++ [n]) enter p l q ↔ Resolve h enter p l q)
  | [], p, _ => ⟨fun hr => by cases hr; exact .nil, fun hr => by cases hr; exact .nil⟩
  | found :: l, p, hp => by
    rw [resolve_cons, resolve_cons, hs.resolve_append hn hp]
    refine or_congr (and_congr_right' ?_) (or_congr Iff.rfl (and_congr_right' (and_congr_right' ?_)))
    · refine exists₂_congr fun a m => and_congr_right fun e => ?_
      subst e
      rw [get_append_of_lt n (inside_node.1 hp).lt]
      exact and_congr_right fun ha => hs.resolve_append hn (hs.parent (field_of_get ha)).inside
    · refine exists₄_congr fun a m b k => and_congr_right fun e => ?_
      subst e
      rw [get_append_of_lt n (inside_node.1 hp).lt]
      refine and_congr_right fun ha => ?_
      rw [hs.first_append hn (hs.child_inside ha)]
      refine and_congr_right fun hf => ?_
      have hfill := hs.first_filled hf (hs.child_inside ha)
      rw [get_append_of_lt n hfill.lt, hs.resolve_append hn (inside_node.2 hfill)]

theorem Shaped.dest_append (hs : Shaped h) (hn : n.next = .null) {l : List CStr} {new : Option CStr}
    (hp : Inside h p) : Dest (h ++ [n]) p l d new ↔ Dest h p l d new := by
  cases new with
  | none => exact hs.resolve_append hn hp
  | some new =>
    refine exists₂_congr fun init m => and_congr_right' (and_congr_right' (and_congr_right' ?_))
    rw [hs.resolve_append hn hp]
    refine and_congr_right fun hr => ?_
    rw [get_append_of_lt n (inside_node.1 (hs.resolve_filled hr hp)).lt]
    exact and_congr_right fun hd => hs.missing_append hn (hs.child_inside hd)

end

end NetProg.NameServer
