import Mathlib.Logic.Function.Basic
import Mathlib.Data.List.Nodup
import Mathlib.Data.List.Basic

/-!
# Pointer chains

A store of records linked by a `next` field, seen through the function `next : α → Ptr α` from addresses to
pointers.

* `Seg next p l q`: following `next` from `p` visits the nodes `l`, in order, and arrives at `q`;
* `Chain next p l`: the same with `q` the null pointer, so the walk from `p` is finite and its nodes are `l`.

A chain is determined by its first pointer (`Chain.unique`) and never visits a node twice (`Chain.nodup`);
an assignment to a `next` field off the chain leaves it as it is (`seg_update`).
-/

namespace NetProg.Lib

/-- A C pointer to a record at an address of `α`: it may never have been assigned. -/
inductive Ptr (α : Type) where
  | unassigned
  | null
  | node (a : α)
  deriving DecidableEq

/-- The pointer, or null if it was never assigned. -/
def Ptr.orNull {α : Type} : Ptr α → Ptr α
  | .node a => .node a
  | _ => .null

@[simp] theorem Ptr.orNull_null {α : Type} : (Ptr.null : Ptr α).orNull = .null := rfl

@[simp] theorem Ptr.orNull_unassigned {α : Type} : (Ptr.unassigned : Ptr α).orNull = .null := rfl

@[simp] theorem Ptr.orNull_node {α : Type} {a : α} : (Ptr.node a).orNull = .node a := rfl

theorem Ptr.orNull_of_ne {α : Type} {p : Ptr α} (hp : p ≠ .unassigned) : p.orNull = p := by
  cases p with
  | unassigned => exact absurd rfl hp
  | null => rfl
  | node a => rfl

/-- The pointer, with other addresses. -/
def Ptr.map {α β : Type} (f : α → β) : Ptr α → Ptr β
  | .unassigned => .unassigned
  | .null => .null
  | .node a => .node (f a)

@[simp] theorem Ptr.map_unassigned {α β : Type} {f : α → β} : Ptr.map f .unassigned = .unassigned := rfl

@[simp] theorem Ptr.map_null {α β : Type} {f : α → β} : Ptr.map f .null = .null := rfl

@[simp] theorem Ptr.map_node {α β : Type} {f : α → β} {a : α} : Ptr.map f (.node a) = .node (f a) := rfl

@[simp] theorem Ptr.map_id {α : Type} (p : Ptr α) : p.map id = p := by cases p <;> rfl

section Chains

variable {α : Type} {next : α → Ptr α}

/-- Following `next` from `p` visits `l` and arrives at `q`. -/
def Seg (next : α → Ptr α) : Ptr α → List α → Ptr α → Prop
  | p, [], q => p = q
  | p, a :: l, q => p = .node a ∧ Seg next (next a) l q

/-- The walk from `p` visits `l` and ends at the null pointer. -/
def Chain (next : α → Ptr α) (p : Ptr α) (l : List α) : Prop := Seg next p l .null

@[simp] theorem seg_nil {p q : Ptr α} : Seg next p [] q ↔ p = q := Iff.rfl

@[simp] theorem seg_cons {p q : Ptr α} {a : α} {l : List α} :
    Seg next p (a :: l) q ↔ p = .node a ∧ Seg next (next a) l q := Iff.rfl

@[simp] theorem chain_nil {p : Ptr α} : Chain next p [] ↔ p = .null := Iff.rfl

@[simp] theorem chain_cons {p : Ptr α} {a : α} {l : List α} :
    Chain next p (a :: l) ↔ p = .node a ∧ Chain next (next a) l := Iff.rfl

theorem seg_append {q : Ptr α} {m : List α} : ∀ {l : List α} {p : Ptr α},
    Seg next p (l ++ m) q ↔ ∃ r, Seg next p l r ∧ Seg next r m q
  | [], p => by simp
  | a :: l, p => by simp [seg_append (l := l), and_assoc]

theorem chain_append {m l : List α} {p : Ptr α} :
    Chain next p (l ++ m) ↔ ∃ r, Seg next p l r ∧ Chain next r m := seg_append

theorem Seg.end_unique {q q' : Ptr α} : ∀ {l : List α} {p : Ptr α}, Seg next p l q → Seg next p l q' → q = q'
  | [], _, h, h' => h.symm.trans h'
  | _ :: _, _, h, h' => Seg.end_unique h.2 h'.2

/-- The walk up to the first visit of a node. -/
theorem Seg.unique {v : α} : ∀ {l l' : List α} {p : Ptr α}, Seg next p l (.node v) → Seg next p l' (.node v) →
    v ∉ l → v ∉ l' → l = l'
  | [], [], _, _, _, _, _ => rfl
  | [], b :: l', _, h, h', _, hv => by
    rw [seg_nil] at h
    rw [h] at h'
    cases h'.1
    simp at hv
  | a :: l, [], _, h, h', hv, _ => by
    rw [seg_nil] at h'
    rw [h'] at h
    cases h.1
    simp at hv
  | a :: l, b :: l', _, h, h', hv, hv' => by
    have e : a = b := by simpa using h.1.symm.trans h'.1
    subst e
    rw [Seg.unique h.2 h'.2 (fun hm => hv (List.mem_cons_of_mem _ hm)) fun hm => hv' (List.mem_cons_of_mem _ hm)]

theorem Seg.nodup {v : α} : ∀ {l : List α} {p : Ptr α}, Seg next p l (.node v) → v ∉ l → l.Nodup
  | [], _, _, _ => List.nodup_nil
  | a :: l, _, h, hv => by
    refine List.nodup_cons.2 ⟨fun ha => ?_, Seg.nodup h.2 fun hm => hv (List.mem_cons_of_mem _ hm)⟩
    -- a second visit to `a` would be followed by the same walk as the first one
    obtain ⟨l₁, l₂, rfl⟩ := List.append_of_mem ha
    obtain ⟨r, -, h'⟩ := seg_append.1 h.2
    have := congrArg List.length (Seg.unique h.2 h'.2 (fun hm => hv (List.mem_cons_of_mem _ hm))
      fun hm => hv (by simp [hm]))
    simp at this
    omega

/-- The chain from a node of a chain is the rest of it. -/
theorem Chain.suffix {p : Ptr α} {l m : List α} {a : α} (h : Chain next p (l ++ a :: m)) :
    Chain next (next a) m := by
  obtain ⟨r, -, h2⟩ := chain_append.1 h
  exact h2.2

theorem Chain.unique : ∀ {l l' : List α} {p : Ptr α}, Chain next p l → Chain next p l' → l = l'
  | [], [], _, _, _ => rfl
  | [], _ :: _, _, h, h' => by rw [chain_nil] at h; rw [h] at h'; cases h'.1
  | _ :: _, [], _, h, h' => by rw [chain_nil] at h'; rw [h'] at h; cases h.1
  | a :: l, b :: l', _, h, h' => by
    have e : a = b := by
      have := h.1.symm.trans h'.1
      simpa using this
    subst e
    rw [Chain.unique h.2 h'.2]

/-- A walk to a node of a chain is an initial part of it. -/
theorem Chain.exists_of_seg {v : α} : ∀ {l l' : List α} {p : Ptr α}, Chain next p l' → Seg next p l (.node v) →
    ∃ m, l' = l ++ v :: m
  | [], l', p, hc, hs => by
    rw [seg_nil.1 hs] at hc
    cases l' with
    | nil => cases hc
    | cons a l' =>
      obtain ⟨e, -⟩ := hc
      cases e
      exact ⟨l', rfl⟩
  | a :: l, l', p, hc, hs => by
    obtain ⟨rfl, hs⟩ := hs
    cases l' with
    | nil => cases hc
    | cons b l' =>
      obtain ⟨e, hc⟩ := hc
      cases e
      obtain ⟨m, rfl⟩ := Chain.exists_of_seg hc hs
      exact ⟨m, rfl⟩

theorem Chain.orNull {p : Ptr α} {l : List α} (h : Chain next p l) : p.orNull = p := by
  cases l with
  | nil => rw [chain_nil.1 h, Ptr.orNull_null]
  | cons a l => rw [h.1, Ptr.orNull_node]

theorem Chain.nodup : ∀ {l : List α} {p : Ptr α}, Chain next p l → l.Nodup
  | [], _, _ => List.nodup_nil
  | a :: l, _, h => by
    refine List.nodup_cons.2 ⟨fun ha => ?_, Chain.nodup h.2⟩
    -- a second visit to `a` would make the walk from `a` a proper suffix of itself
    obtain ⟨l₁, l₂, rfl⟩ := List.append_of_mem ha
    have h' : Chain next (next a) l₂ := Chain.suffix (l := l₁) h.2
    have := congrArg List.length (Chain.unique h.2 h')
    simp at this
    omega

variable [DecidableEq α]

instance decidableSeg : ∀ (l : List α) (p q : Ptr α), Decidable (Seg next p l q)
  | [], p, q => inferInstanceAs (Decidable (p = q))
  | a :: l, p, q =>
    have := decidableSeg l (next a) q
    inferInstanceAs (Decidable (p = .node a ∧ Seg next (next a) l q))

instance (l : List α) (p : Ptr α) : Decidable (Chain next p l) := decidableSeg l p .null

/-- An assignment to a field off the walk. -/
theorem seg_update {a : α} {v q : Ptr α} : ∀ {l : List α} {p : Ptr α}, a ∉ l →
    (Seg (Function.update next a v) p l q ↔ Seg next p l q)
  | [], p, _ => Iff.rfl
  | b :: l, p, h => by
    simp only [List.mem_cons, not_or] at h
    rw [seg_cons, seg_cons, seg_update h.2, Function.update_of_ne (Ne.symm h.1)]

theorem chain_update {a : α} {v : Ptr α} {l : List α} {p : Ptr α} (h : a ∉ l) :
    Chain (Function.update next a v) p l ↔ Chain next p l := seg_update h

/-- An assignment to the field of a node of the walk redirects the walk there. -/
theorem Chain.redirect {p v : Ptr α} {l m m' : List α} {a : α} (h : Chain next p (l ++ a :: m))
    (hm : Chain next v m') (ha : a ∉ m') : Chain (Function.update next a v) p (l ++ a :: m') := by
  have hnd := h.nodup
  have hal : a ∉ l := fun hal => by
    have := List.disjoint_of_nodup_append hnd hal
    simp at this
  obtain ⟨r, h1, h2⟩ := chain_append.1 h
  refine chain_append.2 ⟨r, (seg_update hal).2 h1, h2.1, ?_⟩
  rw [Function.update_self]
  exact (chain_update ha).2 hm

/-- Every walk stays finite when one field is redirected to a finite walk. -/
theorem exists_chain_redirect {p v : Ptr α} {l m : List α} {a : α} (h : Chain next p l)
    (hm : Chain next v m) (ha : a ∉ m) : ∃ l', Chain (Function.update next a v) p l' := by
  by_cases hal : a ∈ l
  · obtain ⟨l₁, l₂, rfl⟩ := List.append_of_mem hal
    exact ⟨_, h.redirect hm ha⟩
  · exact ⟨l, (chain_update hal).2 h⟩

end Chains

end NetProg.Lib
