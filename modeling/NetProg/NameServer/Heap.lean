import NetProg.Lib.Process
import NetProg.Lib.SiblingForest

/-!
# The nodes of the name server

`struct node` and the memory it lives in (`fileNameServer.c`).  A heap is the list of the nodes allocated so far, an
address is a position in it; nodes are never freed.  `deref` is what every `p->field` goes through: it stops the
operation at a null pointer and at one that was never assigned.

A name of 256 bytes or more runs over the fields behind `name`.  The model stops behind such a `strcpy`, with the memory
that it leaves (`overrun`): the program goes on, but what it comes to depends on the addresses `malloc` has returned.

The field updates below change one field of one node; `links` is the heap as the two pointer functions of
`NetProg.Lib.SiblingForest`, and the simp lemmas say what each update does to it and to the other fields.
-/

namespace NetProg.NameServer

open NetProg.Lib

/-- Where the model of an operation ends before the operation is done: a dereference of `NULL` or of a pointer that was
never assigned, a `strcpy` past the end of a `name` field or an `sprintf` past that of a number, or a loop along `next`
that never ends. -/
inductive Fault where
  | null
  | unassigned
  | overflow
  | diverge
  deriving DecidableEq

/-- The two values of the field `type`. -/
inductive NodeType where
  | directory
  | file
  deriving DecidableEq

/-- `struct node`. -/
structure Node where
  name : CStr
  next : Ptr ℕ
  child : Ptr ℕ
  parent : Ptr ℕ
  type : NodeType
  no_of_chunks : ℤ
  loc_name : CStr
  deriving DecidableEq

/-- The capacity of the field `name`. -/
def nameSize : ℕ := 256

/-- The nodes allocated so far, by address. -/
abbrev Heap := List Node

/-- The access to a node behind every `p->field`. -/
def deref (h : Heap) : Ptr ℕ → Except Fault (ℕ × Node)
  | .null => .error .null
  | .unassigned => .error .unassigned
  | .node a => match h[a]? with
    | none => .error .unassigned
    | some n => .ok (a, n)

/-- `strcpy` into a field `name`. -/
def strcpyName (s : CStr) : Except Fault CStr :=
  if s.bytes.length < nameSize then .ok s else .error .overflow

/-! ### Field updates -/

def setNext (h : Heap) (a : ℕ) (p : Ptr ℕ) : Heap := h.modify a fun n => { n with next := p }
def setChild (h : Heap) (a : ℕ) (p : Ptr ℕ) : Heap := h.modify a fun n => { n with child := p }
def setParent (h : Heap) (a : ℕ) (p : Ptr ℕ) : Heap := h.modify a fun n => { n with parent := p }
def setName (h : Heap) (a : ℕ) (s : CStr) : Heap := h.modify a fun n => { n with name := s }
def setLocName (h : Heap) (a : ℕ) (s : CStr) : Heap := h.modify a fun n => { n with loc_name := s }

/-- The size of a pointer. -/
def ptrSize : ℕ := 8

/-- A pointer whose first bytes have become `b`.  It leads to no node: no place in a heap has such an address.  A zero on
the first byte of `NULL` changes nothing. -/
def overwrite (b : List Byte) (p : Ptr ℕ) : Ptr ℕ :=
  if b = [] ∨ b = [0] ∧ p = .null then p
  else .node (UInt64.size + b.foldr (fun x n => x.toNat + 256 * n) 0)

/-- A node behind a `strcpy` into its field `name`: the bytes from the 257th on lie over `next`, `child` and `parent`.
What lies over `type` and the fields behind it is left out. -/
def Node.overrun (n : Node) (name : CStr) : Node :=
  let b := name.z.drop nameSize
  { n with
    name := name
    next := overwrite (b.take ptrSize) n.next
    child := overwrite ((b.drop ptrSize).take ptrSize) n.child
    parent := overwrite ((b.drop (2 * ptrSize)).take ptrSize) n.parent }

/-- The heap behind a `strcpy` of a name that does not fit. -/
def overrun (h : Heap) (a : ℕ) (name : CStr) : Heap := h.modify a fun n => n.overrun name

/-- The field `f` of the node at `a`. -/
def field {β : Type} (f : Node → β) (h : Heap) (a : ℕ) : Option β := (h[a]?).map f

/-- The child and sibling pointers of a heap.  A field `child` that was never assigned counts as an empty chain. -/
def links (h : Heap) : Links ℕ where
  child a := ((field Node.child h a).getD .null).orNull
  next a := (field Node.next h a).getD .null

section Lemmas

variable {h : Heap} {a b : ℕ} {p q : Ptr ℕ} {s : CStr} {n : Node} {β : Type} {f : Node → β}

theorem deref_eq_ok {r : ℕ × Node} : deref h p = .ok r ↔ p = .node r.1 ∧ h[r.1]? = some r.2 := by
  obtain ⟨a, n⟩ := r
  cases p with
  | null => simp [deref]
  | unassigned => simp [deref]
  | node b =>
    cases hb : h[b]? with
    | none =>
      simp only [deref, hb, Ptr.node.injEq, reduceCtorEq, false_iff, not_and]
      rintro rfl; simp [hb]
    | some m =>
      simp only [deref, hb, Except.ok.injEq, Prod.mk.injEq, Ptr.node.injEq]
      constructor
      · rintro ⟨rfl, rfl⟩; exact ⟨rfl, hb⟩
      · rintro ⟨rfl, e⟩; exact ⟨rfl, by simpa [hb] using e⟩

@[simp] theorem deref_ne_diverge : deref h p ≠ .error .diverge := by
  unfold deref; split
  · simp
  · simp
  · split <;> simp

theorem deref_node (h : Heap) {a : ℕ} {n : Node} (ha : h[a]? = some n) : deref h (.node a) = .ok (a, n) :=
  deref_eq_ok.2 ⟨rfl, ha⟩

@[simp] theorem length_setNext : (setNext h a p).length = h.length := by simp [setNext]
@[simp] theorem length_setChild : (setChild h a p).length = h.length := by simp [setChild]
@[simp] theorem length_setParent : (setParent h a p).length = h.length := by simp [setParent]
@[simp] theorem length_setName : (setName h a s).length = h.length := by simp [setName]
@[simp] theorem length_setLocName : (setLocName h a s).length = h.length := by simp [setLocName]

theorem field_eq_some {v : β} : field f h a = some v ↔ ∃ n, h[a]? = some n ∧ f n = v := by simp [field]

theorem field_of_get (ha : h[a]? = some n) : field f h a = some (f n) := by simp [field, ha]

theorem field_modify_of_same (g : Node → Node) (hg : ∀ n, f (g n) = f n) :
    field f (h.modify a g) b = field f h b := by
  unfold field
  rw [List.getElem?_modify, Option.map_eq_map, Option.map_map]
  cases h[b]? with
  | none => rfl
  | some n => by_cases hab : a = b <;> simp [hab, hg]

/-- An update that does not touch the field `f` leaves it as it is. -/
@[simp] theorem field_setNext (hf : ∀ n p, f { n with next := p } = f n) :
    field f (setNext h a p) b = field f h b := field_modify_of_same _ fun n => hf n p

@[simp] theorem field_setChild (hf : ∀ n p, f { n with child := p } = f n) :
    field f (setChild h a p) b = field f h b := field_modify_of_same _ fun n => hf n p

@[simp] theorem field_setParent (hf : ∀ n p, f { n with parent := p } = f n) :
    field f (setParent h a p) b = field f h b := field_modify_of_same _ fun n => hf n p

@[simp] theorem field_setName (hf : ∀ n s, f { n with name := s } = f n) :
    field f (setName h a s) b = field f h b := field_modify_of_same _ fun n => hf n s

@[simp] theorem field_setLocName (hf : ∀ n s, f { n with loc_name := s } = f n) :
    field f (setLocName h a s) b = field f h b := field_modify_of_same _ fun n => hf n s

theorem field_isSome : (field f h a).isSome ↔ a < h.length := by simp [field]

theorem field_append_self (h : Heap) (n : Node) : field f (h ++ [n]) h.length = some (f n) := by
  simp [field]

theorem field_append_of_lt (n : Node) (ha : a < h.length) : field f (h ++ [n]) a = field f h a := by
  simp [field, List.getElem?_append_left ha]

theorem field_append_eq_some {v : β} (h : Heap) (n : Node) : field f (h ++ [n]) a = some v ↔
    field f h a = some v ∨ (a = h.length ∧ v = f n) := by
  rcases Nat.lt_trichotomy a h.length with hlt | rfl | hlt
  · rw [field_append_of_lt n hlt]; simp [Nat.ne_of_lt hlt]
  · simp [field, eq_comm]
  · have h1 : (h ++ [n])[a]? = none := by simp; omega
    have h2 : h[a]? = none := by simp; omega
    simp [field, h1, h2]; omega

/-- The field an update changes. -/
theorem field_modify_self (g : Node → Node) : field f (h.modify a g) a = (h[a]?).map fun n => f (g n) := by
  simp [field, Function.comp_def]

theorem field_modify_of_ne (g : Node → Node) (hab : a ≠ b) : field f (h.modify a g) b = field f h b := by
  simp [field, hab]

/-- The field an update changes has the new value at its node and the old one elsewhere. -/
theorem field_modify_eq_some (g : Node → Node) {v w : β} (hg : ∀ n, f (g n) = v) :
    field f (h.modify a g) b = some w ↔ (b = a ∧ a < h.length ∧ w = v) ∨ (b ≠ a ∧ field f h b = some w) := by
  by_cases hab : a = b
  · subst hab
    rw [field_modify_self]
    by_cases hl : a < h.length <;> simp [hl, hg, eq_comm]
  · rw [field_modify_of_ne _ hab]
    simp [Ne.symm hab]

theorem field_setNext_next : field Node.next (setNext h a p) b = some q ↔
    (b = a ∧ a < h.length ∧ q = p) ∨ (b ≠ a ∧ field Node.next h b = some q) :=
  field_modify_eq_some _ fun _ => rfl

theorem field_setChild_child : field Node.child (setChild h a p) b = some q ↔
    (b = a ∧ a < h.length ∧ q = p) ∨ (b ≠ a ∧ field Node.child h b = some q) :=
  field_modify_eq_some _ fun _ => rfl

theorem field_setParent_parent : field Node.parent (setParent h a p) b = some q ↔
    (b = a ∧ a < h.length ∧ q = p) ∨ (b ≠ a ∧ field Node.parent h b = some q) :=
  field_modify_eq_some _ fun _ => rfl

theorem field_setName_name {t : CStr} : field Node.name (setName h a s) b = some t ↔
    (b = a ∧ a < h.length ∧ t = s) ∨ (b ≠ a ∧ field Node.name h b = some t) :=
  field_modify_eq_some _ fun _ => rfl

/-! ### The pointers of a heap -/

theorem links_child : (links h).child a = ((field Node.child h a).getD .null).orNull := rfl
theorem links_next : (links h).next a = (field Node.next h a).getD .null := rfl

theorem links_setNext (ha : a < h.length) :
    links (setNext h a p) = { links h with next := Function.update (links h).next a p } := by
  refine congrArg₂ Links.mk (funext fun b => ?_) (funext fun b => ?_)
  · rw [field_setNext fun _ _ => rfl]; rfl
  · by_cases hab : b = a
    · subst hab
      rw [Function.update_self, setNext, field_modify_self]
      simp [ha]
    · rw [Function.update_of_ne hab, setNext, field_modify_of_ne _ (Ne.symm hab)]
      rfl

theorem links_setChild (ha : a < h.length) (hp : p ≠ .unassigned) :
    links (setChild h a p) = { links h with child := Function.update (links h).child a p } := by
  refine congrArg₂ Links.mk (funext fun b => ?_) (funext fun b => ?_)
  · by_cases hab : b = a
    · subst hab
      rw [Function.update_self, setChild, field_modify_self]
      simp [ha, Ptr.orNull_of_ne hp]
    · rw [Function.update_of_ne hab, setChild, field_modify_of_ne _ (Ne.symm hab)]
      rfl
  · rw [field_setChild fun _ _ => rfl]; rfl

theorem links_modify_of_same (g : Node → Node) (hc : ∀ n, (g n).child = n.child) (hn : ∀ n, (g n).next = n.next) :
    links (h.modify a g) = links h := by
  refine congrArg₂ Links.mk (funext fun b => ?_) (funext fun b => ?_)
  · rw [field_modify_of_same _ hc]
  · rw [field_modify_of_same _ hn]

@[simp] theorem links_setParent : links (setParent h a p) = links h :=
  links_modify_of_same _ (fun _ => rfl) fun _ => rfl

@[simp] theorem links_setName : links (setName h a s) = links h :=
  links_modify_of_same _ (fun _ => rfl) fun _ => rfl

@[simp] theorem links_setLocName : links (setLocName h a s) = links h :=
  links_modify_of_same _ (fun _ => rfl) fun _ => rfl

/-- A new node without a child or a sibling changes no pointer. -/
theorem links_append (hc : n.child.orNull = .null) (hn : n.next = .null) : links (h ++ [n]) = links h := by
  have key : ∀ (f : Node → Ptr ℕ) (g : Ptr ℕ → Ptr ℕ), g (f n) = .null → g .null = .null → ∀ b,
      g ((field f (h ++ [n]) b).getD .null) = g ((field f h b).getD .null) := by
    intro f g hf hg b
    rcases Nat.lt_trichotomy b h.length with hlt | rfl | hlt
    · rw [field_append_of_lt n hlt]
    · simp [field, hf, hg]
    · have h1 : (h ++ [n])[b]? = none := by simp; omega
      have h2 : h[b]? = none := by simp; omega
      simp [field, h1, h2]
  exact congrArg₂ Links.mk (funext (key _ Ptr.orNull hc rfl)) (funext (key _ id hn rfl))

end Lemmas

end NetProg.NameServer
