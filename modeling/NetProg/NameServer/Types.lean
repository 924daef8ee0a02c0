import NetProg.NameServer.Steps

/-!
# Types

`Typed` holds of the tree with `home` alone and is kept by every command (`Typed.step`), so it holds of every state
the server reaches (`Reachable.typed`).
-/

namespace NetProg.NameServer

open NetProg.Lib

section

variable {s s' : Mem} {h h' : Heap} {a b d x : ℕ} {p : Ptr ℕ} {n : Node} {c : Cmd} {out : List Byte}

theorem Unlinked.extends (hs : Shaped h) (hu : Unlinked h x h') : Extends h h' := by
  cases hu with
  | kept => exact ⟨id, id⟩
  | cut hx => exact extends_cut (hs.next (field_of_get hx)).ne_unassigned

theorem Unlinked.shaped (hs : Shaped h) (hu : Unlinked h x h') : Shaped h' := by
  cases hu with
  | kept => exact hs
  | cut hx hpar => exact hs.cut (hs.parent (field_of_get hx) _ hpar).1 (hs.next (field_of_get hx))

theorem extends_rename {new : Option CStr} : Extends h (rename h x new) := by
  cases new with
  | none => exact ⟨id, id⟩
  | some new => exact extends_setName

theorem Shaped.rename (hs : Shaped h) {new : Option CStr} : Shaped (rename h x new) := by
  cases new with
  | none => exact hs
  | some new => exact hs.setName

/-- The node a new heap ends with is filled in. -/
theorem filled_append_self (hn : n.child ≠ .unassigned) : Filled (h ++ [n]) h.length :=
  ⟨n.child, field_append_self h n, hn⟩

theorem typed_fresh (garbage : ℕ → Node) : Typed (fresh garbage) where
  heap := by
    refine ⟨fun {a p} ha => ?_, fun {a p} ha => ?_, fun {a p} ha => ?_⟩ <;>
      obtain ⟨n, hn, rfl⟩ := field_eq_some.1 ha <;>
      obtain ⟨-, rfl⟩ : a = 0 ∧ _ = n := by
        cases a with
        | zero => simpa [fresh] using hn
        | succ a => simp [fresh] at hn
    · exact Or.inr (Or.inl rfl)
    · exact link_null
    · intro b e; cases e
  cur := dirPtr_node.2 ⟨rfl, .null, rfl, by simp⟩

/-- No command changes the type of a node. -/
theorem step_extends (hs : Typed s) (h : Step s c out s') : Extends s.heap s'.heap := by
  have hh := hs.heap
  cases step_cases hs h with
  | keep => exact ⟨id, id⟩
  | enter => exact ⟨id, id⟩
  | @insert _ _ n => exact (extends_append s.heap n).trans (extends_setAfter (by simp))
  | remove _ _ hg => exact extends_cut (hh.next (field_of_get hg)).ne_unassigned
  | unlinked _ hu => exact hu.extends hh
  | move _ hu => exact (((hu.extends hh).trans extends_setParent).trans (extends_setAfter (by simp))).trans extends_rename
  | orphan => exact extends_append _ _
  | copy => exact ((extends_append s.heap _).trans extends_setParent).trans (extends_setAfter (by simp))

/-- **Every command keeps the types.** -/
theorem Typed.step (hs : Typed s) (h : Step s c out s') : Typed s' := by
  have hext := step_extends hs h
  have hc := step_cases hs h
  obtain ⟨hh, hcur⟩ := hs
  cases hc with
  | keep => exact ⟨hh, hcur⟩
  | enter hr => exact ⟨hh, hh.resolve_dir hr hcur⟩
  | @insert _ _ n d l e hc hn hp hk _ =>
    have hd := hcur d e
    have hch : n.child ≠ .unassigned := by rw [hc]; simp
    have h₁ : Shaped (s.heap ++ [n]) := hh.append (by rw [hc, Ptr.orNull_null]) hn (by rw [hp]; exact dirPtr_node.2 hd)
    exact ⟨h₁.setAfter ((extends_append s.heap n).type hd.1) (link_node.2 (filled_append_self hch)), hcur.mono hext⟩
  | @remove _ _ d l v vn e hv hg _ =>
    exact ⟨hh.cut (hcur d e).1 (hh.next (field_of_get hg)), hcur.mono hext⟩
  | unlinked hr hu => exact ⟨hu.shaped hh, hcur.mono hext⟩
  | @move _ _ x h₁ d new l hr hu hd ht hk =>
    have h₁s := hu.shaped hh
    have hx := (hu.extends hh).filled (inside_node.1 (hh.resolve_filled hr hcur.inside))
    have hd := h₁s.dest_filled hd (hcur.mono (hu.extends hh)).inside
    have he : Extends h₁ (setParent h₁ x (.node d)) := extends_setParent
    exact ⟨((h₁s.setParent (dirPtr_node.2 ⟨ht, hd⟩)).setAfter (he.type ht) (link_node.2 (he.filled hx))).rename,
      hcur.mono hext⟩
  | orphan hr hx => exact ⟨hh.append rfl rfl (fun a e => by cases e), hcur.mono hext⟩
  | @copy _ _ loc x xn d new l _ hr hx hd ht hk =>
    have hd := hh.dest_filled hd hcur.inside
    have ha := extends_append s.heap (copyNode s xn (new.getD xn.name) loc)
    have he : Extends (s.heap ++ [copyNode s xn (new.getD xn.name) loc])
      (setParent (s.heap ++ [copyNode s xn (new.getD xn.name) loc]) x (.node d)) := extends_setParent
    have h₁ := hh.append (n := copyNode s xn (new.getD xn.name) loc) rfl rfl (fun a e => by cases e)
    have h₂ := h₁.setParent (a := x) (dirPtr_node.2 ⟨ha.type ht, ha.filled hd⟩)
    exact ⟨h₂.setAfter (he.type (ha.type ht)) (link_node.2 (he.filled (filled_append_self (by simp [copyNode])))),
      hcur.mono hext⟩

theorem Run.typed {P : Mem → Cmd → Prop} {garbage : ℕ → Node} {cs : List Cmd} (h : Run P (fresh garbage) cs s) :
    Typed s :=
  h.inv Typed (typed_fresh garbage) fun _ _ _ _ hs _ hst => hs.step hst

theorem filled_home {P : Mem → Cmd → Prop} {garbage : ℕ → Node} {cs : List Cmd} (h : Run P (fresh garbage) cs s) :
    Filled s.heap home :=
  (h.inv (fun s => Typed s ∧ Filled s.heap home) ⟨typed_fresh garbage, .null, rfl, by simp⟩
    fun _ _ _ _ hs _ hst => ⟨hs.1.step hst, (step_extends hs.1 hst).filled hs.2⟩).2

theorem Reachable.typed (h : Reachable s) : Typed s := by
  obtain ⟨garbage, cs, hr⟩ := h
  exact hr.typed

end

end NetProg.NameServer
