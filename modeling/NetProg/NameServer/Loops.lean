import NetProg.NameServer.Commands

/-!
# What the loops of the name server compute

The loops of `Walk.lean` in terms of the chains of `links h`:

* `find` breaks at the first node of the chain that passes the test, and ends when the chain does;
* `attach` redirects the null pointer behind a child chain to the new node;
* `unlink` and `removeChild` redirect the pointer in front of the node they stop at (`CutLoop`).

`setAfter h d l p` is the assignment all of them make: to the field `child` of `d` when `l` is empty, to the field
`next` of the last node of `l` otherwise.
-/

namespace NetProg.NameServer

open NetProg.Lib

/-- The pointer behind the first nodes `l` of the child chain of `d` is assigned. -/
def setAfter (h : Heap) (d : ℕ) (l : List ℕ) (p : Ptr ℕ) : Heap :=
  match l.getLast? with
  | none => setChild h d p
  | some a => setNext h a p

section

variable {h h' : Heap} {a b c d x : ℕ} {p : Ptr ℕ} {l : List ℕ} {n : Node}

@[simp] theorem setAfter_nil (h : Heap) (d : ℕ) (p : Ptr ℕ) : setAfter h d [] p = setChild h d p := rfl

@[simp] theorem setAfter_concat (h : Heap) (d a : ℕ) (l : List ℕ) (p : Ptr ℕ) :
    setAfter h d (l ++ [a]) p = setNext h a p := by simp [setAfter]

@[simp] theorem length_setAfter : (setAfter h d l p).length = h.length := by
  unfold setAfter; split <;> simp

theorem links_setAfter (hd : d < h.length) (hl : ∀ a ∈ l, a < h.length) (hp : p ≠ .unassigned) :
    links (setAfter h d l p) = (links h).setAfter d l p := by
  rcases List.eq_nil_or_concat' l with rfl | ⟨l, a, rfl⟩
  · simp [links_setChild hd hp]
  · simp [links_setNext (hl a (by simp))]

theorem field_setAfter {β : Type} {f : Node → β} (hc : ∀ n p, f { n with child := p } = f n)
    (hn : ∀ n p, f { n with next := p } = f n) : field f (setAfter h d l p) b = field f h b := by
  unfold setAfter; split
  · exact field_setChild hc
  · exact field_setNext hn

theorem links_child_of_get (ha : h[a]? = some n) : (links h).child a = n.child.orNull := by
  simp [links_child, field_of_get ha]

theorem links_next_of_get (ha : h[a]? = some n) : (links h).next a = n.next := by
  simp [links_next, field_of_get ha]

theorem exists_get {h : Heap} {a : ℕ} (ha : a < h.length) : ∃ n, h[a]? = some n :=
  ⟨h[a], List.getElem?_eq_getElem ha⟩

theorem lt_of_get (ha : h[a]? = some n) : a < h.length := (List.getElem?_eq_some_iff.1 ha).1

/-! ### Lookup loops -/

section Find

variable {hit : Node → Bool} {fuel : ℕ}

theorem find_null : find h hit (fuel + 1) .null = .ok none := rfl

theorem find_node (ha : h[a]? = some n) :
    find h hit (fuel + 1) (.node a) = if hit n then .ok (some a) else find h hit fuel n.next := by
  simp only [find, deref_node h ha]
  rfl

theorem find_succ_eq_ok {r : Option ℕ} (hf : find h hit (fuel + 1) p = .ok r) :
    (p = .null ∧ r = none) ∨ ∃ a n, p = .node a ∧ h[a]? = some n ∧
      if hit n then r = some a else find h hit fuel n.next = .ok r := by
  cases p with
  | null => exact Or.inl ⟨rfl, by simpa [find_null, eq_comm] using hf⟩
  | unassigned => simp [find, deref, bind, Except.bind] at hf
  | node a =>
    cases ha : h[a]? with
    | none => simp [find, deref, ha, bind, Except.bind] at hf
    | some n =>
      rw [find_node ha] at hf
      refine Or.inr ⟨a, n, rfl, ha, ?_⟩
      split at hf <;> simp_all

/-- The node a lookup loop breaks at. -/
theorem find_eq_some : ∀ {fuel : ℕ} {p : Ptr ℕ}, find h hit fuel p = .ok (some a) →
    ∃ l n, Seg (links h).next p l (.node a) ∧ h[a]? = some n ∧ hit n = true ∧
      ∀ b ∈ l, ∃ m, h[b]? = some m ∧ hit m = false
  | 0, _, hf => by simp [find] at hf
  | fuel + 1, p, hf => by
    rcases find_succ_eq_ok hf with ⟨-, h0⟩ | ⟨c, n, rfl, hc, hr⟩
    · cases h0
    · split at hr
      · next hn =>
        cases hr
        exact ⟨[], n, rfl, hc, hn, by simp⟩
      · next hn =>
        obtain ⟨l, m, hs, hm, hh, hl⟩ := find_eq_some hr
        refine ⟨c :: l, m, ⟨rfl, links_next_of_get hc ▸ hs⟩, hm, hh, ?_⟩
        intro b hb
        rcases List.mem_cons.1 hb with rfl | hb
        · exact ⟨n, hc, by simpa using hn⟩
        · exact hl b hb

/-- A lookup loop that comes to the null pointer has seen the whole chain. -/
theorem find_eq_none : ∀ {fuel : ℕ} {p : Ptr ℕ}, find h hit fuel p = .ok none →
    ∃ l, Chain (links h).next p l ∧ ∀ b ∈ l, ∃ m, h[b]? = some m ∧ hit m = false
  | 0, _, hf => by simp [find] at hf
  | fuel + 1, p, hf => by
    rcases find_succ_eq_ok hf with ⟨rfl, -⟩ | ⟨c, n, rfl, hc, hr⟩
    · exact ⟨[], rfl, by simp⟩
    · split at hr
      · cases hr
      · next hn =>
        obtain ⟨l, hs, hl⟩ := find_eq_none hr
        refine ⟨c :: l, ⟨rfl, links_next_of_get hc ▸ hs⟩, ?_⟩
        intro b hb
        rcases List.mem_cons.1 hb with rfl | hb
        · exact ⟨n, hc, by simpa using hn⟩
        · exact hl b hb

/-- Along a finite chain a lookup loop ends. -/
theorem exists_find (hit : Node → Bool) : ∀ {l : List ℕ} {fuel : ℕ} {p : Ptr ℕ}, Chain (links h).next p l →
    (∀ b ∈ l, b < h.length) → l.length < fuel → ∃ r, find h hit fuel p = .ok r
  | [], fuel + 1, p, hc, _, _ => by
    rw [chain_nil] at hc
    exact ⟨none, hc ▸ find_null⟩
  | a :: l, fuel + 1, p, hc, hl, hf => by
    obtain ⟨rfl, hc⟩ := hc
    obtain ⟨n, ha⟩ := exists_get (hl a (by simp))
    rw [find_node ha]
    split
    · exact ⟨_, rfl⟩
    · rw [links_next_of_get ha] at hc
      exact exists_find hit hc (fun b hb => hl b (List.mem_cons_of_mem _ hb)) (by simpa using hf)

theorem find_of_seg : ∀ {l : List ℕ} {fuel : ℕ} {p : Ptr ℕ}, Seg (links h).next p l (.node b) → h[b]? = some n →
    hit n = true → (∀ c ∈ l, ∃ m, h[c]? = some m ∧ hit m = false) → l.length < fuel →
    find h hit fuel p = .ok (some b)
  | [], fuel + 1, p, hs, hb, hn, _, _ => by
    rw [seg_nil.1 hs, find_node hb, if_pos hn]
  | a :: l, fuel + 1, p, hs, hb, hn, hl, hf => by
    obtain ⟨rfl, hs⟩ := hs
    obtain ⟨m, ha, hm⟩ := hl a (by simp)
    rw [links_next_of_get ha] at hs
    rw [find_node ha, if_neg (by simp [hm])]
    exact find_of_seg hs hb hn (fun c hc => hl c (List.mem_cons_of_mem _ hc)) (by simpa using hf)

/-- `b` is the first node of the name on the walk from `p`. -/
def First (h : Heap) (found : CStr) (p : Ptr ℕ) (b : ℕ) : Prop :=
  ∃ l, Seg (links h).next p l (.node b) ∧ field Node.name h b = some found ∧
    ∀ c ∈ l, ∃ t, field Node.name h c = some t ∧ t ≠ found

/-- No node on the walk from `p`, which ends, bears the name. -/
def Missing (h : Heap) (found : CStr) (p : Ptr ℕ) : Prop :=
  ∃ l, Chain (links h).next p l ∧ ∀ c ∈ l, ∃ t, field Node.name h c = some t ∧ t ≠ found

theorem lookup_eq_some {found : CStr} (hl : lookup h found p = .ok (some b)) : First h found p b := by
  obtain ⟨l, n, hs, hb, hn, hl⟩ := find_eq_some hl
  refine ⟨l, hs, by simpa [field_of_get hb] using hn, fun c hc => ?_⟩
  obtain ⟨m, hm, hne⟩ := hl c hc
  exact ⟨m.name, field_of_get hm, by simpa using hne⟩

theorem lookup_eq_none {found : CStr} (hl : lookup h found p = .ok none) : Missing h found p := by
  obtain ⟨l, hs, hl⟩ := find_eq_none hl
  refine ⟨l, hs, fun c hc => ?_⟩
  obtain ⟨m, hm, hne⟩ := hl c hc
  exact ⟨m.name, field_of_get hm, by simpa using hne⟩

theorem First.unique {found : CStr} : ∀ {p : Ptr ℕ}, First h found p a → First h found p b → a = b := by
  rintro p ⟨l, hs, hn, hl⟩ ⟨l', hs', hn', hl'⟩
  induction l generalizing p l' with
  | nil =>
    cases l' with
    | nil =>
      have := hs.symm.trans hs'
      simpa using this
    | cons c l' =>
      have e : a = c := by simpa using hs.symm.trans hs'.1
      obtain ⟨t, ht, hne⟩ := hl' c (by simp)
      rw [← e, hn] at ht
      exact absurd (Option.some.inj ht).symm hne
  | cons c l ih =>
    cases l' with
    | nil =>
      have e : b = c := by simpa using hs'.symm.trans hs.1
      obtain ⟨t, ht, hne⟩ := hl c (by simp)
      rw [← e, hn'] at ht
      exact absurd (Option.some.inj ht).symm hne
    | cons c' l' =>
      have e : c = c' := by simpa using hs.1.symm.trans hs'.1
      subst e
      exact ih hs.2 (fun d hd => hl d (List.mem_cons_of_mem _ hd)) l' hs'.2 fun d hd =>
        hl' d (List.mem_cons_of_mem _ hd)

/-- What is missing is not found. -/
theorem Missing.not_first {found : CStr} : ∀ {p : Ptr ℕ}, Missing h found p → ¬ First h found p b := by
  rintro p ⟨l, hs, hl⟩ ⟨l', hs', hn', -⟩
  induction l' generalizing p l with
  | nil =>
    cases l with
    | nil => simpa using hs.symm.trans hs'
    | cons c l =>
      have e : b = c := by simpa using hs'.symm.trans hs.1
      obtain ⟨t, ht, hne⟩ := hl c (by simp)
      rw [← e, hn'] at ht
      exact hne (Option.some.inj ht).symm
  | cons c' l' ih =>
    cases l with
    | nil => simpa using hs.symm.trans hs'.1
    | cons c l =>
      have e : c = c' := by simpa using hs.1.symm.trans hs'.1
      subst e
      exact ih l hs.2 (fun d hd => hl d (List.mem_cons_of_mem _ hd)) hs'.2

end Find

/-! ### Linking in -/

theorem findLast_eq_ok : ∀ {fuel : ℕ} {p : Ptr ℕ}, findLast h fuel p = .ok a →
    ∃ l, Chain (links h).next p (l ++ [a]) ∧ ∀ b ∈ l ++ [a], b < h.length
  | 0, _, hf => by simp [findLast] at hf
  | fuel + 1, p, hf => by
    simp only [findLast, except_bind_eq_ok, deref_eq_ok] at hf
    obtain ⟨⟨c, n⟩, ⟨rfl, hc⟩, hf⟩ := hf
    split at hf
    · next hn =>
      cases hf
      exact ⟨[], by simpa [links_next_of_get hc] using hn, by simpa using lt_of_get hc⟩
    · obtain ⟨l, hl, hlt⟩ := findLast_eq_ok hf
      rw [← links_next_of_get hc] at hl
      refine ⟨c :: l, ⟨rfl, hl⟩, ?_⟩
      intro b hb
      rcases List.mem_cons.1 hb with rfl | hb
      · exact lt_of_get hc
      · exact hlt b hb

theorem exists_findLast : ∀ {l : List ℕ} {fuel : ℕ} {p : Ptr ℕ}, Chain (links h).next p (l ++ [a]) →
    (∀ b ∈ l ++ [a], b < h.length) → l.length < fuel → findLast h fuel p = .ok a
  | [], fuel + 1, p, hc, hl, _ => by
    obtain ⟨rfl, hc⟩ := hc
    obtain ⟨n, ha⟩ := exists_get (hl a (by simp))
    have hn : n.next = .null := by simpa [links_next_of_get ha] using hc
    simp only [findLast, deref_node h ha]
    exact if_pos hn
  | b :: l, fuel + 1, p, hc, hl, hf => by
    obtain ⟨rfl, hc⟩ := hc
    obtain ⟨n, hb⟩ := exists_get (hl b (by simp))
    rw [links_next_of_get hb] at hc
    have hn : n.next ≠ .null := by
      intro h0
      rw [h0] at hc
      cases l <;> exact absurd hc.1 (by simp)
    simp only [findLast, deref_node h hb]
    refine (if_neg hn).trans ?_
    exact exists_findLast hc (fun c hc => hl c (List.mem_cons_of_mem _ hc)) (by simpa using hf)

/-- **Linking in**: the null pointer behind the child chain of the directory is redirected. -/
theorem attach_eq_ok {d : Ptr ℕ} (ha : attach h d x = .ok h') : ∃ c l, d = .node c ∧ c < h.length ∧
    (links h).Kids c l ∧ (∀ b ∈ l, b < h.length) ∧ h' = setAfter h c l (.node x) := by
  simp only [attach, except_bind_eq_ok, deref_eq_ok] at ha
  obtain ⟨⟨c, n⟩, ⟨rfl, hc⟩, ha⟩ := ha
  split at ha
  · next hn =>
    cases ha
    refine ⟨c, [], rfl, lt_of_get hc, ?_, by simp, rfl⟩
    show (links h).child c = .null
    rw [links_child_of_get hc, hn, Ptr.orNull_null]
  · rw [except_bind_eq_ok] at ha
    obtain ⟨a, hl, ha⟩ := ha
    cases ha
    obtain ⟨l, hl, hlt⟩ := findLast_eq_ok hl
    refine ⟨c, l ++ [a], rfl, lt_of_get hc, ?_, hlt, by simp⟩
    show Chain _ ((links h).child c) _
    rwa [links_child_of_get hc, hl.orNull]

theorem attach_of_kids {c : ℕ} (hg : h[c]? = some n) (hu : n.child ≠ .unassigned) (hk : (links h).Kids c l)
    (hl : ∀ b ∈ l, b < h.length) (hf : l.length ≤ h.length) :
    attach h (.node c) x = .ok (setAfter h c l (.node x)) := by
  have hk' : Chain (links h).next n.child l := by
    have := hk
    rwa [Links.Kids, links_child_of_get hg, Ptr.orNull_of_ne hu] at this
  simp only [attach, deref_node h hg]
  rcases List.eq_nil_or_concat' l with rfl | ⟨l, a, rfl⟩
  · exact if_pos hk'
  · have hn : n.child ≠ .null := by
      intro h0
      rw [h0] at hk'
      cases l <;> exact absurd hk'.1 (by simp)
    refine (if_neg hn).trans ?_
    rw [exists_findLast hk' hl (by simp at hf; unfold rounds; omega)]
    simp [bind, Except.bind]

/-! ### Unlinking -/

/-- The heap with the nodes between the chain `l` of `d` and what stands behind `x` cut out. -/
def cut (h : Heap) (d : ℕ) (l : List ℕ) (x : ℕ) (p : Ptr ℕ) : Heap := setNext (setAfter h d l p) x .null

@[simp] theorem length_cut : (cut h d l x p).length = h.length := by simp [cut]

theorem links_cut (hd : d < h.length) (hl : ∀ a ∈ l, a < h.length) (hx : x < h.length) (hp : p ≠ .unassigned) :
    links (cut h d l x p) = ((links h).setAfter d l p).clear x := by
  rw [cut, links_setNext (by simpa using hx), links_setAfter hd hl hp]
  rfl

theorem field_cut {β : Type} {f : Node → β} (hc : ∀ n p, f { n with child := p } = f n)
    (hn : ∀ n p, f { n with next := p } = f n) : field f (cut h d l x p) b = field f h b := by
  rw [cut, field_setNext hn, field_setAfter hc hn]

/-! ### The loops that cut out a node -/

/-- What the loops of `unlink` and `removeChild` have in common: they run along a chain, with the node in front of the
current one, up to the first node that passes the test. -/
structure CutLoop {β : Type} (h : Heap) (hit : Node → Prop) (done : β) (found : ℕ → ℕ → Node → β)
    (F : ℕ → ℕ → Ptr ℕ → Except Fault β) : Prop where
  out (prev p) : F 0 prev p = .error .diverge
  null (fuel prev) : F (fuel + 1) prev .null = .ok done
  lost {fuel prev p e} : p ≠ .null → deref h p = .error e → F (fuel + 1) prev p = .error e
  stops {fuel prev a n} : h[a]? = some n → hit n → F (fuel + 1) prev (.node a) = .ok (found prev a n)
  passes {fuel prev a n} : h[a]? = some n → ¬ hit n → F (fuel + 1) prev (.node a) = F fuel a n.next

theorem unlinkLoop_loop (h : Heap) (x : ℕ) (xn : Node) : CutLoop h (fun n => n.name = xn.name) h
    (fun prev _ _ => setNext (setNext h prev xn.next) x .null) (unlinkLoop h x xn) where
  out _ _ := rfl
  null _ _ := rfl
  lost {fuel prev p e} hp he := by
    cases p with
    | null => exact absurd rfl hp
    | _ => simp [unlinkLoop, he, bind, Except.bind]
  stops ha hn := by simp [unlinkLoop, deref_node h ha, bind, Except.bind, hn]
  passes ha hn := by simp [unlinkLoop, deref_node h ha, bind, Except.bind, hn]

theorem removeLoop_loop (h : Heap) (file : CStr) : CutLoop h (fun n => n.name = file ∧ n.type = .file) none
    (fun prev a n => some (a, setNext (setNext h prev n.next) a .null)) (removeLoop h file) where
  out _ _ := rfl
  null _ _ := rfl
  lost {fuel prev p e} hp he := by
    cases p with
    | null => exact absurd rfl hp
    | _ => simp [removeLoop, he, bind, Except.bind]
  stops ha hn := by simp [removeLoop, deref_node h ha, bind, Except.bind, hn]
  passes ha hn := by simp [removeLoop, deref_node h ha, bind, Except.bind, hn]

namespace CutLoop

variable {β : Type} {hit : Node → Prop} {done r : β} {found : ℕ → ℕ → Node → β} {F : ℕ → ℕ → Ptr ℕ → Except Fault β}

/-- It has come to the end of the chain, or to the first node that passes the test. -/
theorem eq_ok (hF : CutLoop h hit done found F) : ∀ {fuel prev : ℕ} {temp : Ptr ℕ}, F fuel prev temp = .ok r →
    ∃ l, (∀ b ∈ l, ∃ m, h[b]? = some m ∧ ¬ hit m) ∧
      ((Chain (links h).next temp l ∧ r = done) ∨ ∃ v vn, Seg (links h).next temp l (.node v) ∧ h[v]? = some vn ∧
        hit vn ∧ r = found ((prev :: l).getLast (by simp)) v vn)
  | 0, _, _, hf => by
    rw [hF.out] at hf
    cases hf
  | fuel + 1, prev, .null, hf => by
    rw [hF.null] at hf
    cases hf
    exact ⟨[], by simp, Or.inl ⟨rfl, rfl⟩⟩
  | fuel + 1, prev, .unassigned, hf => by
    rw [hF.lost (e := .unassigned) (by simp) rfl] at hf
    cases hf
  | fuel + 1, prev, .node c, hf => by
    cases hc : h[c]? with
    | none =>
      rw [hF.lost (e := .unassigned) (by simp) (by simp [deref, hc])] at hf
      cases hf
    | some n =>
      by_cases hn : hit n
      · rw [hF.stops hc hn] at hf
        cases hf
        exact ⟨[], by simp, Or.inr ⟨c, n, rfl, hc, hn, rfl⟩⟩
      · rw [hF.passes hc hn] at hf
        obtain ⟨l, hl, hr⟩ := hF.eq_ok hf
        refine ⟨c :: l, ?_, ?_⟩
        · intro b hb
          rcases List.mem_cons.1 hb with rfl | hb
          · exact ⟨n, hc, hn⟩
          · exact hl b hb
        · rcases hr with ⟨hr, e⟩ | ⟨v, vn, hv, hg, hhit, e⟩
          · exact Or.inl ⟨⟨rfl, links_next_of_get hc ▸ hr⟩, e⟩
          · exact Or.inr ⟨v, vn, ⟨rfl, links_next_of_get hc ▸ hv⟩, hg, hhit, by simpa using e⟩

/-- Where it starts at a node that does not pass the test, this is the first that it goes past. -/
theorem eq_ok_of_passes (hF : CutLoop h hit done found F) (hc : h[c]? = some n) (hn : ¬ hit n) {fuel prev : ℕ}
    (hf : F fuel prev (.node c) = .ok r) : ∃ l, (∀ b ∈ c :: l, ∃ m, h[b]? = some m ∧ ¬ hit m) ∧
      ((Chain (links h).next (.node c) (c :: l) ∧ r = done) ∨ ∃ v vn,
        Seg (links h).next (.node c) (c :: l) (.node v) ∧ h[v]? = some vn ∧ hit vn ∧
          r = found ((c :: l).getLast (by simp)) v vn) := by
  cases fuel with
  | zero =>
    rw [hF.out] at hf
    cases hf
  | succ fuel =>
    rw [hF.passes hc hn] at hf
    obtain ⟨l, hl, hr⟩ := hF.eq_ok hf
    refine ⟨l, by simpa using ⟨⟨n, hc, hn⟩, hl⟩, ?_⟩
    rcases hr with ⟨hr, e⟩ | ⟨v, vn, hv, hg⟩
    · exact Or.inl ⟨⟨rfl, links_next_of_get hc ▸ hr⟩, e⟩
    · exact Or.inr ⟨v, vn, ⟨rfl, links_next_of_get hc ▸ hv⟩, hg⟩

/-- It ends within as many rounds as there are nodes in front of the end of the chain, or of one that passes the test. -/
theorem ne_diverge (hF : CutLoop h hit done found F) (hp : p = .null ∨ ∃ v n, p = .node v ∧ h[v]? = some n ∧ hit n) :
    ∀ {l : List ℕ} {fuel prev : ℕ} {temp : Ptr ℕ}, Seg (links h).next temp l p → l.length < fuel →
      F fuel prev temp ≠ .error .diverge
  | [], fuel + 1, prev, temp, hl, _ => by
    rw [seg_nil.1 hl]
    rcases hp with rfl | ⟨v, n, rfl, hv, hn⟩
    · simp [hF.null]
    · simp [hF.stops hv hn]
  | a :: l, fuel + 1, prev, temp, hl, hf => by
    obtain ⟨rfl, hl⟩ := hl
    cases ha : h[a]? with
    | none =>
      rw [hF.lost (e := .unassigned) (by simp) (by simp [deref, ha])]
      simp
    | some n =>
      by_cases hn : hit n
      · simp [hF.stops ha hn]
      · rw [hF.passes ha hn]
        exact hF.ne_diverge hp (links_next_of_get ha ▸ hl) (by simpa using hf)

end CutLoop

/-- **Unlinking by name.**  Along the chain of the directory the field `parent` of `x` points to, the first node with
the name of `x` is cut out together with everything up to what the field `next` of `x` points to.  Where no node has
the name nothing changes. -/
theorem unlink_eq_ok (hu : unlink h x = .ok h') : ∃ xn par pn l, h[x]? = some xn ∧ xn.parent = .node par ∧
    h[par]? = some pn ∧ pn.child ≠ .null ∧ (∀ b ∈ l, ∃ m, h[b]? = some m ∧ m.name ≠ xn.name) ∧
      (((links h).Kids par l ∧ h' = h) ∨ ∃ v vn, Seg (links h).next pn.child l (.node v) ∧ h[v]? = some vn ∧
        vn.name = xn.name ∧ h' = cut h par l x xn.next) := by
  simp only [unlink, except_bind_eq_ok, deref_eq_ok, Ptr.node.injEq] at hu
  obtain ⟨⟨_, xn⟩, ⟨rfl, hx⟩, ⟨par, pn⟩, ⟨hpar, hp⟩, ⟨c, cn⟩, ⟨hchild, hc⟩, hu⟩ := hu
  dsimp only at hx hpar hp hchild hc hu
  have hne : pn.child ≠ .null := by rw [hchild]; simp
  split at hu
  · next hn =>
    cases hu
    exact ⟨xn, par, pn, [], hx, hpar, hp, hne, by simp, Or.inr ⟨c, cn, by simpa using hchild, hc, hn, rfl⟩⟩
  · next hn =>
    -- the loop starts over at the first child, which it has just seen to bear another name
    obtain ⟨l, hl, hr⟩ := (unlinkLoop_loop h x xn).eq_ok_of_passes hc hn hu
    refine ⟨xn, par, pn, c :: l, hx, hpar, hp, hne, hl, ?_⟩
    rcases hr with ⟨hr, e⟩ | ⟨v, vn, hv, hg, hname, e⟩
    · refine Or.inl ⟨?_, e⟩
      rw [Links.Kids, links_child_of_get hp, hchild]
      exact hr
    · refine Or.inr ⟨v, vn, hchild ▸ hv, hg, hname, ?_⟩
      rw [e, cut, setAfter, List.getLast?_eq_some_getLast (by simp)]

/-- **Removing a child.**  The child found is cut out of the chain of the current directory; it is the first one, or
the first file of the name behind a first child of another name.  If there is none, the chain holds no file of the
name. -/
theorem removeChild_eq_ok {cur : Ptr ℕ} {file : CStr} {r : Option (ℕ × Heap)} (hr : removeChild h cur file = .ok r) :
    ∃ c l, cur = .node c ∧ c < h.length ∧
      (∀ b ∈ l, ∃ m, h[b]? = some m ∧ ¬ (m.name = file ∧ m.type = NodeType.file)) ∧
      ((∀ b ∈ l.head?, ∃ m, h[b]? = some m ∧ m.name ≠ file) ∧
      (((links h).Kids c l ∧ r = none) ∨ ∃ v vn, Seg (links h).next ((links h).child c) l (.node v) ∧
        h[v]? = some vn ∧ vn.name = file ∧ (l ≠ [] → vn.type = NodeType.file) ∧ r = some (v, cut h c l v vn.next))) := by
  simp only [removeChild, except_bind_eq_ok, deref_eq_ok] at hr
  obtain ⟨⟨c, cn⟩, ⟨rfl, hc⟩, hr⟩ := hr
  dsimp only at hc hr
  have hchild := links_child_of_get hc
  split at hr
  · next hn =>
    cases hr
    exact ⟨c, [], rfl, lt_of_get hc, by simp, by simp, Or.inl ⟨by rw [Links.Kids, hchild, hn]; rfl, rfl⟩⟩
  · simp only [except_bind_eq_ok, deref_eq_ok] at hr
    obtain ⟨⟨a, n⟩, ⟨hfst, ha⟩, hr⟩ := hr
    dsimp only at hfst ha hr
    split at hr
    · next hn =>
      cases hr
      exact ⟨c, [], rfl, lt_of_get hc, by simp, by simp, Or.inr ⟨a, n, by simp [hchild, hfst], ha, hn, by simp, rfl⟩⟩
    · next hn =>
      -- as in `unlink`, the loop starts over at the first child
      obtain ⟨l, hl, hr⟩ := (removeLoop_loop h file).eq_ok_of_passes ha (fun h => hn h.1) hr
      refine ⟨c, a :: l, rfl, lt_of_get hc, hl, by simpa using ⟨n, ha, hn⟩, ?_⟩
      rcases hr with ⟨hr, e⟩ | ⟨v, vn, hv, hg, ⟨hname, htype⟩, e⟩
      · refine Or.inl ⟨?_, e⟩
        rw [Links.Kids, hchild, hfst]
        exact hr
      · refine Or.inr ⟨v, vn, by rw [hchild, hfst]; exact hv, hg, hname, fun _ => htype, ?_⟩
        rw [e, cut, setAfter, List.getLast?_eq_some_getLast (by simp)]

end

end NetProg.NameServer
