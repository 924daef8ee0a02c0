import Mathlib.Data.List.Induction
import NetProg.NameServer.FileTree
import NetProg.NameServer.Safety
import NetProg.NameServer.Standing

/-!
# The tree that the name server keeps

What the heap of the name server is for: a `FileTree`, which has a list of children at each node and no pointer from one
child to the next.  `FileTree.exec` is what each command does to it, and what is answered.

* `Rep s T`: the memory `s` holds the tree `T`;
* `find_eq`, `follow_eq`: the loops of the server are searches in the lists;
* `serves_step`, `answers`: the server does what `FileTree.exec` says, and where it says something, it is done;
* `serves_tree`: so it is in every run.
-/

namespace NetProg.NameServer

open NetProg.Lib

/-- Where a file is. -/
structure Whereabouts where
  no_of_chunks : ℤ
  loc_name : CStr
  deriving DecidableEq

def Node.label (n : Node) : Tag := ⟨n.name, n.type⟩

def Node.place (n : Node) : Whereabouts := ⟨n.no_of_chunks, n.loc_name⟩

namespace FileTree

variable (T : FileTree Whereabouts)

/-- What is sent about a file, if there is room for the number of its chunks. -/
def located (a : ℕ) : Option (List Byte) :=
  if (decimal (T.data a).no_of_chunks).bytes.length < 10 then
    some ((T.data a).loc_name.z ++ (decimal (T.data a).no_of_chunks).z)
  else none

/-- What is sent of the names in a directory. -/
def listing (ns : List CStr) : List Byte := ns.flatMap (fun name => name.bytes ++ [10]) ++ [0]

/-- The answer of a command that can be refused. -/
def verdict (r : Bool × FileTree Whereabouts) : List Byte × FileTree Whereabouts :=
  (if r.1 then (lit "0").z else (lit "1").z, r.2)

/-- **The commands**; `garbage` is what `malloc` finds. -/
def exec (garbage : ℕ → Node) : Cmd → Option (List Byte × FileTree Whereabouts)
  | .ls => T.names.map fun ns => (listing ns, T)
  | .mkdir dirname => (T.mkdir dirname ⟨0, (garbage T.size).loc_name⟩).map fun T' => ([], T')
  | .cd dirname => (T.cd dirname).map verdict
  | .tobigfs filename no_of_chunks loc => (T.create filename ⟨atoi no_of_chunks, loc⟩).map verdict
  | .cat file | .frombigfs file =>
    (T.get file).bind fun a => (T.located a).map fun out => ((lit "1").z ++ out, T)
  | .rm file => (T.remove file).bind fun r => (T.located r.1).map fun out => ((lit "1").z ++ out, r.2)
  | .mv source destination => (T.move source destination).map verdict
  | .cp source destination loc =>
    match T.copying source destination with
    | some .missing => some ((lit "1").z, T)
    -- the node is made before the destination is looked at
    | some (.refused x) => some ((lit "1").z, T.grow ⟨(garbage T.size).name, (T.label x).type⟩
        ⟨(T.data x).no_of_chunks, (garbage T.size).loc_name⟩ .unassigned)
    | some (.goes x d new) =>
      (T.located x).map fun out => ((lit "0").z ++ out, T.addCopy x d new ⟨(T.data x).no_of_chunks, loc⟩)
    | none => none

end FileTree

/-! ### The heap holds a tree -/

/-- The memory holds the tree: the children of a node are those on its chain, in this order. -/
structure Rep (s : Mem) (T : FileTree Whereabouts) : Prop where
  size : T.size = s.heap.length
  label : ∀ {a}, a < s.heap.length → field Node.label s.heap a = some (T.label a)
  data : ∀ {a}, a < s.heap.length → field Node.place s.heap a = some (T.data a)
  parent : ∀ {a}, a < s.heap.length → field Node.parent s.heap a = some (T.parent a)
  kids : ∀ d, (links s.heap).Kids d (T.kids d)
  cur : T.cur = s.cur

section Rep

variable {s s' : Mem} {T : FileTree Whereabouts} {h : Heap} {a b d x : ℕ} {p q : Ptr ℕ} {l : List ℕ} {n : Node}

theorem Rep.label_of_get (h : Rep s T) (ha : s.heap[a]? = some n) : T.label a = n.label := by
  have he := h.label (lt_of_get ha)
  rw [field_of_get ha, Option.some.injEq] at he
  exact he.symm

theorem Rep.data_of_get (h : Rep s T) (ha : s.heap[a]? = some n) : T.data a = n.place := by
  have he := h.data (lt_of_get ha)
  rw [field_of_get ha, Option.some.injEq] at he
  exact he.symm

theorem Rep.parent_of_get (h : Rep s T) (ha : s.heap[a]? = some n) : T.parent a = n.parent := by
  have he := h.parent (lt_of_get ha)
  rw [field_of_get ha, Option.some.injEq] at he
  exact he.symm

/-- A chain that is walked along is a list that is searched. -/
theorem find_chain {hit : Node → Bool} {hit' : ℕ → Bool} (hhit : ∀ {b m}, h[b]? = some m → hit m = hit' b) {fuel : ℕ}
    {o : Option ℕ} (hp : Chain (links h).next p l) (hf : find h hit fuel p = .ok o) : o = l.find? hit' := by
  induction fuel generalizing p l with
  | zero => cases hf
  | succ fuel ih =>
    cases l with
    | nil =>
      cases hp
      cases hf
      rfl
    | cons b l =>
      obtain ⟨rfl, hl⟩ := hp
      cases hb : h[b]? with
      | none =>
        simp only [find, deref, hb] at hf
        cases hf
      | some m =>
        rw [links_next_of_get hb] at hl
        simp only [find, deref, hb] at hf
        change (if hit m = true then Except.ok (some b) else find h hit fuel m.next) = Except.ok o at hf
        rw [List.find?_cons, ← hhit hb]
        split at hf
        · next hm =>
          cases hf
          rw [hm]
        · next hm =>
          rw [Bool.eq_false_iff.2 hm]
          exact ih hl hf

/-- **The lookups** find what the tree has. -/
theorem find_eq (hR : Rep s T) {hit : Node → Bool} {hit' : Tag → Bool}
    (hhit : ∀ m, hit m = hit' m.label) (hd : s.heap[d]? = some n) {fuel : ℕ} {o : Option ℕ}
    (hf : find s.heap hit fuel n.child = .ok o) : T.find d hit' = o := by
  have hne : n.child.orNull = n.child := by
    refine Ptr.orNull_of_ne fun e => ?_
    rw [e] at hf
    cases fuel with
    | zero => cases hf
    | succ fuel => cases hf
  have hk := hR.kids d
  rw [Links.Kids, links_child_of_get hd, hne] at hk
  refine (find_chain (fun {b m} hb => ?_) hk hf).symm
  rw [hhit, hR.label_of_get hb]

/-- **The paths** lead where they lead in the tree. -/
theorem follow_eq {α : Type} {enter : Node → Prop} {enter' : Tag → Bool} {done : Ptr ℕ → α}
    {stop : CStr → List CStr → ℕ → α} {W : List CStr → Ptr ℕ → Except Fault α} (hR : Rep s T)
    (hW : PathLoop s.heap enter done stop W) (henter : ∀ m, enter' m.label = true ↔ enter m) {comps : List CStr}
    {r : α} (hw : W comps p = .ok r) : T.follow enter' done stop comps p = some r := by
  induction comps generalizing p with
  | nil =>
    rw [hW.nil] at hw
    cases hw
    rfl
  | cons found rest ih =>
    unfold FileTree.follow
    by_cases hdot : found = dot
    · subst hdot
      rw [hW.stay] at hw
      rw [if_pos rfl]
      exact ih hw
    rw [if_neg hdot]
    cases hp : deref s.heap p with
    | error e =>
      rw [hW.lost hdot hp] at hw
      cases hw
    | ok an =>
      obtain ⟨a, n⟩ := an
      obtain ⟨rfl, ha⟩ := deref_eq_ok.1 hp
      dsimp only at ha ⊢
      by_cases hdd : found = dotdot
      · subst hdd
        rw [hW.up ha] at hw
        rw [if_pos rfl, hR.parent_of_get ha]
        exact ih hw
      rw [if_neg hdd]
      cases hl : lookup s.heap found n.child with
      | error e =>
        rw [hW.failed hdd hdot ha hl] at hw
        cases hw
      | ok o =>
        have hfind : (T.find a fun e => e.name = found) = o := find_eq hR (fun _ => rfl) ha hl
        rw [hfind]
        cases o with
        | none =>
          rw [hW.missing hdd hdot ha hl] at hw
          exact congrArg some (Except.ok.inj hw)
        | some b =>
          obtain ⟨m, hb, -⟩ := (lookup_eq_some hl).get
          dsimp only
          rw [hR.label_of_get hb]
          by_cases he : enter m
          · rw [hW.down hdd hdot ha hl hb he] at hw
            rw [if_pos ((henter m).2 he)]
            exact ih hw
          · rw [hW.barred hdd hdot ha hl hb he] at hw
            rw [if_neg (fun h => he ((henter m).1 h))]
            exact congrArg some (Except.ok.inj hw)

theorem cdWalk_eq (hR : Rep s T) {comps : List CStr} {o : Option (Ptr ℕ)} (hw : cdWalk s.heap comps p = .ok o) :
    T.walk (fun e => e.type = .directory) comps p = some o :=
  follow_eq hR (cdWalk_loop s.heap) (fun _ => decide_eq_true_iff) hw

theorem walkSource_eq (hR : Rep s T) {comps : List CStr} {o : Option (Ptr ℕ)}
    (hw : walkSource s.heap comps p = .ok o) : T.walk (fun _ => true) comps p = some o :=
  follow_eq hR (walkSource_loop s.heap) (fun _ => by simp [anyNode]) hw

theorem walkDestination_eq (hR : Rep s T) {comps : List CStr} {dst : Destination}
    (hw : walkDestination s.heap comps p = .ok dst) : T.dest comps p = some dst :=
  follow_eq hR (walkDestination_loop s.heap) (fun _ => by simp [anyNode]) hw

/-! ### What is linked in and cut out -/

/-- **A new node.** -/
theorem Rep.insert (hR : Rep s T) (hs : Typed s) (hL : (links s.heap).Sound) (hd : d < s.heap.length)
    (hc : n.child.orNull = .null) (hn : n.next = .null) :
    Rep { s with heap := setAfter (s.heap ++ [n]) d (T.kids d) (.node s.heap.length) }
      (T.add d n.label n.place n.parent) := by
  obtain ⟨-, hself, hother⟩ := sound_insert (n := n) hs.heap hL hd (hR.kids d) hc hn rfl (by simp)
  have hfield : ∀ {β : Type} {f : Node → β} {g : ℕ → β}, (∀ n p, f { n with child := p } = f n) →
      (∀ n p, f { n with next := p } = f n) → (∀ a < s.heap.length, field f s.heap a = some (g a)) →
      ∀ a < s.heap.length + 1, field f (setAfter (s.heap ++ [n]) d (T.kids d) (.node s.heap.length)) a =
        some (Function.update g T.size (f n) a) := by
    intro β f g hfc hfn hg a ha
    rw [field_setAfter hfc hfn, hR.size]
    by_cases he : a = s.heap.length
    · rw [he, field_append_self, Function.update_self]
    · rw [field_append_of_lt _ (by omega), Function.update_of_ne he]
      exact hg a (by omega)
  have hlen : (setAfter (s.heap ++ [n]) d (T.kids d) (.node s.heap.length)).length = s.heap.length + 1 := by simp
  constructor
  · exact (congrArg (· + 1) hR.size).trans hlen.symm
  · intro a ha
    exact hfield (fun _ _ => rfl) (fun _ _ => rfl) (fun a ha => hR.label ha) a (hlen ▸ ha)
  · intro a ha
    exact hfield (fun _ _ => rfl) (fun _ _ => rfl) (fun a ha => hR.data ha) a (hlen ▸ ha)
  · intro a ha
    exact hfield (fun _ _ => rfl) (fun _ _ => rfl) (fun a ha => hR.parent ha) a (hlen ▸ ha)
  · intro e
    show (links _).Kids e (Function.update T.kids d (T.kids d ++ [T.size]) e)
    by_cases he : e = d
    · rw [he, Function.update_self, hR.size]
      exact hself
    · rw [Function.update_of_ne he]
      exact (hother e _ he).1 (hR.kids e)
  · exact hR.cur

/-- A node that nothing leads to. -/
theorem Rep.lose (hR : Rep s T) (hc : n.child.orNull = .null) (hn : n.next = .null) :
    Rep { s with heap := s.heap ++ [n] } (T.grow n.label n.place n.parent) := by
  have hfield : ∀ {β : Type} {f : Node → β} {g : ℕ → β}, (∀ a < s.heap.length, field f s.heap a = some (g a)) →
      ∀ a < s.heap.length + 1, field f (s.heap ++ [n]) a = some (Function.update g T.size (f n) a) := by
    intro β f g hg a ha
    rw [hR.size]
    by_cases he : a = s.heap.length
    · rw [he, field_append_self, Function.update_self]
    · rw [field_append_of_lt _ (by omega), Function.update_of_ne he]
      exact hg a (by omega)
  have hlen : (s.heap ++ [n]).length = s.heap.length + 1 := by simp
  constructor
  · exact (congrArg (· + 1) hR.size).trans hlen.symm
  · intro a ha
    exact hfield (fun a ha => hR.label ha) a (hlen ▸ ha)
  · intro a ha
    exact hfield (fun a ha => hR.data ha) a (hlen ▸ ha)
  · intro a ha
    exact hfield (fun a ha => hR.parent ha) a (hlen ▸ ha)
  · intro e
    show (links (s.heap ++ [n])).Kids e (T.kids e)
    rw [links_append hc hn]
    exact hR.kids e
  · exact hR.cur

/-- **A child less.** -/
theorem Rep.erase (hR : Rep s T) (hs : Typed s) (hL : (links s.heap).Sound) (hd : d < s.heap.length)
    (hv : Seg (links s.heap).next ((links s.heap).child d) l (.node x)) (hg : s.heap[x]? = some n) :
    Rep { s with heap := cut s.heap d l x n.next }
      (T.setKids d ((T.kids d).erase x)) := by
  obtain ⟨-, m, hk, hk', hother⟩ := sound_remove hs.heap hL hd hv hg
  have hlen : (cut s.heap d l x n.next).length = s.heap.length := by simp
  constructor
  · exact hR.size.trans hlen.symm
  · intro a ha
    rw [field_cut (fun _ _ => rfl) fun _ _ => rfl]
    exact hR.label (hlen ▸ ha)
  · intro a ha
    rw [field_cut (fun _ _ => rfl) fun _ _ => rfl]
    exact hR.data (hlen ▸ ha)
  · intro a ha
    rw [field_cut (fun _ _ => rfl) fun _ _ => rfl]
    exact hR.parent (hlen ▸ ha)
  · intro e
    show (links _).Kids e (Function.update T.kids d ((T.kids d).erase x) e)
    by_cases he : e = d
    · rw [he, Function.update_self, (hR.kids d).unique hk, erase_middle hk.nodup]
      exact hk'
    · rw [Function.update_of_ne he]
      exact (hother e _ he).1 (hR.kids e)
  · exact hR.cur

/-- What `detach` makes of a list of children. -/
theorem unlinked_list {r t m : List ℕ} {v : ℕ} (ht : v :: r = t ++ x :: m) (hnodup : (l ++ v :: r).Nodup)
    (hl : ∀ b ∈ l, (T.label b).name ≠ (T.label x).name) (hv : (T.label v).name = (T.label x).name) :
    ((l ++ v :: r).takeWhile fun a => (T.label a).name ≠ (T.label x).name) ++
      ((l ++ v :: r).dropWhile fun a => a ≠ x).tail = l ++ m := by
  have htake : ((l ++ v :: r).takeWhile fun a => (T.label a).name ≠ (T.label x).name) = l := by
    rw [List.takeWhile_append_of_pos, List.takeWhile_cons_of_neg, List.append_nil]
    · simpa using hv
    · intro b hb
      simpa using hl b hb
  have hdrop : ((l ++ v :: r).dropWhile fun a => a ≠ x) = x :: m := by
    rw [ht, ← List.append_assoc] at hnodup ⊢
    have hx : x ∉ l ++ t := fun hmem => (List.nodup_cons.1 (List.nodup_middle.1 hnodup)).1 (List.mem_append_left _ hmem)
    rw [List.dropWhile_append_of_pos, List.dropWhile_cons_of_neg]
    · simp
    · intro b hb
      have hne : b ≠ x := fun he => hx (he ▸ hb)
      simpa using hne
  rw [htake, hdrop, List.tail_cons]

/-- **The source of a `mv`** is unlinked from where it stands. -/
theorem Rep.detach (hR : Rep s T) (hs : Typed s) (hL : (links s.heap).Sound) (hx : OnOwnChain s.heap x)
    (hu : Unlinked s.heap x h) : ∃ par, T.parent x = .node par ∧ Rep { s with heap := h } (T.detach x par) := by
  obtain ⟨-, -, xn, par, hg, hpar, hcase⟩ := hu.sound hs.heap hL (.inl hx)
  have hlen : h.length = s.heap.length := by
    cases hu with
    | kept => rfl
    | cut => simp
  refine ⟨par, (hR.parent_of_get hg).trans hpar, ?_⟩
  rcases hcase with ⟨rfl, l, hk, hn⟩ | ⟨l, v, r, m, hk, hn, hname, -, hpos, -, hk', hother⟩
  · exact absurd (hx.mem hg hpar hk) (hn.notMem (field_of_get hg))
  constructor
  · exact hR.size.trans hlen.symm
  · intro a ha
    rw [hu.field_eq (fun _ _ => rfl) fun _ _ => rfl]
    exact hR.label (hlen ▸ ha)
  · intro a ha
    rw [hu.field_eq (fun _ _ => rfl) fun _ _ => rfl]
    exact hR.data (hlen ▸ ha)
  · intro a ha
    rw [hu.field_eq (fun _ _ => rfl) fun _ _ => rfl]
    exact hR.parent (hlen ▸ ha)
  · intro e
    by_cases he : e = par
    · subst he
      have hl := (hR.kids e).unique hk
      show (links h).Kids e (Function.update T.kids e _ e)
      rw [Function.update_self, hl]
      have hlabel : ∀ {b u}, field Node.name s.heap b = some u → (T.label b).name = u := by
        intro b u hb
        obtain ⟨bn, hbn, rfl⟩ := field_eq_some.1 hb
        exact congrArg Tag.name (hR.label_of_get hbn)
      have hxname := hlabel (field_of_get hg)
      rcases hpos with ⟨t, ht⟩ | hoff
      · have hbefore : ∀ b ∈ l, (T.label b).name ≠ (T.label x).name := by
          intro b hb
          obtain ⟨u, hu, hne⟩ := hn b hb
          rwa [hlabel hu, hxname]
        rw [unlinked_list ht hk.nodup hbefore ((hlabel hname).trans hxname.symm)]
        exact hk'
      · obtain ⟨par', l', -, hk₁, hmem⟩ := hx
        exact absurd hmem (hoff x List.mem_cons_self par' l' hk₁)
    · show (links h).Kids e (Function.update T.kids par _ e)
      rw [Function.update_of_ne he]
      exact (hother e _ he).1 (hR.kids e)
  · exact hR.cur

/-- **A node that is linked in again.** -/
theorem Rep.moveTo (hR : Rep s T) (hs : Shaped s.heap) (hL : (links s.heap).Sound) (hd : d < s.heap.length)
    (hx : x < s.heap.length) (hloose : Loose s.heap x) (h0 : (links s.heap).next x = .null) (new : Option CStr) :
    Rep { s with heap := rename (setAfter (setParent s.heap x (.node d)) d (T.kids d) (.node x)) x new }
      (T.moveTo x d new) := by
  have hm : Chain (links s.heap).next (.node x) [x] := ⟨rfl, h0⟩
  obtain ⟨-, hself, hother⟩ := sound_move (p := .node d) hs hL hd (hR.kids d) hloose hm new
  let h₃ := setAfter (setParent s.heap x (.node d)) d (T.kids d) (.node x)
  have hlen₃ : h₃.length = s.heap.length := by simp [h₃]
  have hlen : (rename h₃ x new).length = s.heap.length := by
    cases new with
    | none => exact hlen₃
    | some new => exact (length_setName (h := h₃)).trans hlen₃
  have hlabel₃ : ∀ a < s.heap.length, field Node.label h₃ a = some (T.label a) := by
    intro a ha
    rw [field_setAfter (fun _ _ => rfl) fun _ _ => rfl, field_setParent fun _ _ => rfl]
    exact hR.label ha
  -- the other fields are not renamed
  have hren : ∀ {β : Type} {f : Node → β}, (∀ n p, f { n with child := p } = f n) →
      (∀ n p, f { n with next := p } = f n) → (∀ n t, f { n with name := t } = f n) →
      ∀ a, field f (rename h₃ x new) a = field f (setParent s.heap x (.node d)) a := by
    intro β f hc hn ht a
    have h3 : field f h₃ a = field f (setParent s.heap x (.node d)) a := field_setAfter hc hn
    cases new with
    | none => exact h3
    | some new => exact (field_setName ht).trans h3
  constructor
  · exact hR.size.trans hlen.symm
  · intro a ha
    replace ha : a < s.heap.length := hlen ▸ ha
    show field Node.label (rename h₃ x new) a = some (Function.update T.label x _ a)
    by_cases he : a = x
    · subst he
      rw [Function.update_self]
      cases new with
      | none => exact hlabel₃ a ha
      | some new =>
        obtain ⟨n, hn, hne⟩ := field_eq_some.1 (hlabel₃ a ha)
        show field Node.label (h₃.modify a _) a = _
        rw [field_modify_self, hn, ← hne]
        rfl
    · rw [Function.update_of_ne he, ← hlabel₃ a ha]
      cases new with
      | none => rfl
      | some new => exact field_modify_of_ne _ (Ne.symm he)
  · intro a ha
    rw [hren (fun _ _ => rfl) (fun _ _ => rfl) fun _ _ => rfl, field_setParent fun _ _ => rfl]
    exact hR.data (hlen ▸ ha)
  · intro a ha
    replace ha : a < s.heap.length := hlen ▸ ha
    show field Node.parent (rename h₃ x new) a = some (Function.update T.parent x (.node d) a)
    rw [hren (fun _ _ => rfl) (fun _ _ => rfl) fun _ _ => rfl]
    by_cases he : a = x
    · subst he
      rw [Function.update_self]
      exact field_setParent_parent.2 (.inl ⟨rfl, hx, rfl⟩)
    · rw [Function.update_of_ne he]
      exact field_setParent_parent.2 (.inr ⟨he, hR.parent ha⟩)
  · intro e
    show (links (rename h₃ x new)).Kids e (Function.update T.kids d (T.kids d ++ [x]) e)
    by_cases he : e = d
    · rw [he, Function.update_self]
      exact hself
    · rw [Function.update_of_ne he]
      exact (hother e _ he).1 (hR.kids e)
  · exact hR.cur

theorem Rep.reparent (hR : Rep s T) (hx : x < s.heap.length) :
    Rep { s with heap := setParent s.heap x p } (T.reparent x p) where
  size := hR.size.trans length_setParent.symm
  label ha := by
    rw [field_setParent fun _ _ => rfl]
    exact hR.label (length_setParent ▸ ha)
  data ha := by
    rw [field_setParent fun _ _ => rfl]
    exact hR.data (length_setParent ▸ ha)
  parent {a} ha := by
    replace ha : a < s.heap.length := length_setParent ▸ ha
    show field Node.parent (setParent s.heap x p) a = some (Function.update T.parent x p a)
    by_cases he : a = x
    · subst he
      rw [Function.update_self]
      exact field_setParent_parent.2 (.inl ⟨rfl, hx, rfl⟩)
    · rw [Function.update_of_ne he]
      exact field_setParent_parent.2 (.inr ⟨he, hR.parent ha⟩)
  kids e := by
    rw [links_setParent]
    exact hR.kids e
  cur := hR.cur

/-- Assignments to different fields commute. -/
theorem modify_swap {f g : Node → Node} (hfg : ∀ n, f (g n) = g (f n)) :
    (h.modify a g).modify b f = (h.modify b f).modify a g := by
  apply List.ext_getElem?
  intro i
  simp only [List.getElem?_modify, Option.map_eq_map, Option.map_map]
  congr 1
  funext n
  by_cases ha : a = i <;> by_cases hb : b = i <;> simp [ha, hb, hfg]

theorem setAfter_setParent : setAfter (setParent h x p) d l q = setParent (setAfter h d l q) x p := by
  rcases List.eq_nil_or_concat' l with rfl | ⟨l, a, rfl⟩
  · exact modify_swap fun _ => rfl
  · rw [setAfter_concat, setAfter_concat]
    exact modify_swap fun _ => rfl

/-- **A copy**, which gives its source a new parent. -/
theorem Rep.grow (hR : Rep s T) (hs : Typed s) (hL : (links s.heap).Sound) (hd : d < s.heap.length)
    (hx : x < s.heap.length) (hc : n.child.orNull = .null) (hn : n.next = .null) :
    Rep { s with heap := setAfter (setParent (s.heap ++ [n]) x (.node d)) d (T.kids d) (.node s.heap.length) }
      ((T.add d n.label n.place n.parent).reparent x (.node d)) := by
  rw [setAfter_setParent]
  refine (hR.insert hs hL hd hc hn).reparent ?_
  simp
  omega

theorem Rep.lt_iff (hR : Rep s T) : a < T.size ↔ a < s.heap.length := by rw [hR.size]

theorem Rep.closed (hR : Rep s T) (hs : Typed s) : T.Closed where
  kids ha := hR.lt_iff.2 (hs.heap.kids_filled (hR.kids _) _ ha).lt
  parent ha hb := by
    have hp := hR.parent (hR.lt_iff.1 ha)
    rw [hb] at hp
    exact hR.lt_iff.2 (hs.heap.parent hp _ rfl).2.lt
  cur ha := hR.lt_iff.2 (hs.cur _ (hR.cur.symm.trans ha)).2.lt
  fresh {d} hd := by
    refine (hR.kids d).unique ?_
    have hnone : s.heap[d]? = none := List.getElem?_eq_none (by rw [hR.size] at hd; exact hd)
    show (links s.heap).child d = .null
    simp [links, field, hnone]

/-! ### Where the loops end -/

theorem find_ok {hit : Node → Bool} (hs : Shaped h) (hL : (links h).Sound) (ha : h[a]? = some n)
    (hne : n.child ≠ .unassigned) : ∃ o, find h hit (rounds h) n.child = .ok o := by
  cases hf : find h hit (rounds h) n.child with
  | ok o => exact ⟨o, rfl⟩
  | error e =>
    cases find_error hs (hs.child_link ha hne) hf
    exact absurd hf (find_ne_diverge hs hL (hs.child_inside ha))

theorem attach_ok (hs : Shaped h) (hL : (links h).Sound) (hd : Filled h d) : ∃ h', attach h (.node d) x = .ok h' := by
  cases ha : attach h (.node d) x with
  | ok h' => exact ⟨h', rfl⟩
  | error e =>
    cases attach_error hs hd ha
    exact absurd ha (attach_ne_diverge hs hL)

theorem unlink_ok (hs : Shaped h) (hL : (links h).Sound) (hx : OnOwnChain h x) : ∃ h', unlink h x = .ok h' := by
  obtain ⟨par, l, hpar, hk, hxl⟩ := hx
  obtain ⟨b, hb⟩ : ∃ b, field Node.child h par = some (.node b) := by
    cases l with
    | nil => cases hxl
    | cons b l =>
      have hfill := (hs.parent hpar par rfl).2
      obtain ⟨pn, hpn, hne⟩ := hfill.get
      have hc := hk.1
      rw [links_child_of_get hpn, Ptr.orNull_of_ne hne] at hc
      exact ⟨b, by rw [field_of_get hpn, hc]⟩
  cases hu : unlink h x with
  | ok h' => exact ⟨h', rfl⟩
  | error e =>
    cases unlink_error hs (lt_of_field hpar) hpar hb hu
    exact absurd hu (unlink_ne_diverge hs hL)

/-- **A path that leads somewhere in the tree** is walked to its end. -/
theorem follow_ok {α : Type} {enter : Node → Prop} {enter' : Tag → Bool} {done : Ptr ℕ → α}
    {stop : CStr → List CStr → ℕ → α} {W : List CStr → Ptr ℕ → Except Fault α} (hR : Rep s T) (hs : Shaped s.heap)
    (hL : (links s.heap).Sound) (hW : PathLoop s.heap enter done stop W) (henter : ∀ m, enter' m.label = true ↔ enter m)
    {comps : List CStr} {r : α} (hp : Inside s.heap p) (hf : T.follow enter' done stop comps p = some r) :
    W comps p = .ok r := by
  induction comps generalizing p with
  | nil =>
    cases hf
    exact hW.nil p
  | cons found rest ih =>
    unfold FileTree.follow at hf
    by_cases hdot : found = dot
    · subst hdot
      rw [if_pos rfl] at hf
      rw [hW.stay]
      exact ih hp hf
    rw [if_neg hdot] at hf
    cases p with
    | unassigned => cases hf
    | null => cases hf
    | node a =>
      obtain ⟨n, ha, hne⟩ := (hp a rfl).get
      dsimp only at hf
      by_cases hdd : found = dotdot
      · subst hdd
        rw [if_pos rfl, hR.parent_of_get ha] at hf
        rw [hW.up ha]
        exact ih (hs.parent (field_of_get ha)).inside hf
      rw [if_neg hdd] at hf
      obtain ⟨o, hl⟩ : ∃ o, lookup s.heap found n.child = .ok o := find_ok hs hL ha hne
      have hfind : (T.find a fun e => e.name = found) = o := find_eq hR (fun _ => rfl) ha hl
      rw [hfind] at hf
      cases o with
      | none =>
        cases hf
        exact hW.missing hdd hdot ha hl
      | some b =>
        obtain ⟨m, hb, -⟩ := (lookup_eq_some hl).get
        dsimp only at hf
        rw [hR.label_of_get hb] at hf
        by_cases he : enter m
        · rw [if_pos ((henter m).2 he)] at hf
          rw [hW.down hdd hdot ha hl hb he]
          refine ih (inside_node.2 ?_) hf
          exact hs.first_filled (lookup_eq_some hl) (hs.child_inside ha)
        · rw [if_neg (fun h => he ((henter m).1 h))] at hf
          cases hf
          exact hW.barred hdd hdot ha hl hb he

theorem cdWalk_ok (hR : Rep s T) (hs : Typed s) (hL : (links s.heap).Sound) {comps : List CStr} {o : Option (Ptr ℕ)}
    (hw : T.walk (fun e => e.type = .directory) comps T.cur = some o) : cdWalk s.heap comps s.cur = .ok o := by
  rw [hR.cur] at hw
  exact follow_ok hR hs.heap hL (cdWalk_loop s.heap) (fun _ => decide_eq_true_iff) hs.cur.inside hw

theorem walkSource_ok (hR : Rep s T) (hs : Typed s) (hL : (links s.heap).Sound) {comps : List CStr}
    {o : Option (Ptr ℕ)} (hw : T.walk (fun _ => true) comps T.cur = some o) :
    walkSource s.heap comps s.cur = .ok o := by
  rw [hR.cur] at hw
  exact follow_ok hR hs.heap hL (walkSource_loop s.heap) (fun _ => by simp [anyNode]) hs.cur.inside hw

theorem walkDestination_ok (hR : Rep s T) (hs : Shaped s.heap) (hL : (links s.heap).Sound) {comps : List CStr}
    {dst : Destination} (hp : Inside s.heap p) (hw : T.dest comps p = some dst) :
    walkDestination s.heap comps p = .ok dst :=
  follow_ok hR hs hL (walkDestination_loop s.heap) (fun _ => by simp [anyNode]) hp hw

end Rep

/-! ### The commands -/

section Commands

variable {s s' : Mem} {T T' : FileTree Whereabouts} {c : Cmd} {out : List Byte} {d v : ℕ} {n : Node}

theorem Rep.here (hR : Rep s T) (h : s.cur = .node d) : T.here = some d := by
  rw [FileTree.here, hR.cur, h]

theorem Rep.of_here (hR : Rep s T) (h : T.here = some d) : s.cur = .node d := by
  rw [FileTree.here, hR.cur] at h
  cases hc : s.cur with
  | unassigned => rw [hc] at h; cases h
  | null => rw [hc] at h; cases h
  | node a =>
    rw [hc] at h
    cases h
    rfl

theorem Rep.located (hR : Rep s T) (hv : s.heap[v]? = some n) (hfit : (decimal n.no_of_chunks).bytes.length < 10) :
    T.located v = some (n.loc_name.z ++ (decimal n.no_of_chunks).z) := by
  rw [FileTree.located, hR.data_of_get hv]
  exact if_pos hfit

theorem Rep.fits_located (hR : Rep s T) (hv : s.heap[v]? = some n) {o : List Byte} (h : T.located v = some o) :
    (decimal n.no_of_chunks).bytes.length < 10 := by
  rw [FileTree.located, hR.data_of_get hv] at h
  split at h
  · next hfit => exact hfit
  · cases h

/-- A new name is copied, if there is one. -/
theorem elim_strcpyName {new : Option CStr} {name t : CStr} :
    new.elim (.ok name) strcpyName = .ok t ↔ new.all (FileTree.Fits ·) = true ∧ t = new.getD name := by
  cases new with
  | none => simp [eq_comm]
  | some new =>
    show strcpyName new = .ok t ↔ decide (FileTree.Fits new) = true ∧ t = new
    rw [strcpyName_eq_ok, decide_eq_true_iff]
    rfl

/-- The loop of `ls` prints the names on a chain. -/
theorem listLoop_ends (hR : Rep s T) {fuel : ℕ} {p : Ptr ℕ} {l : List ℕ} (hp : Chain (links s.heap).next p l)
    (h : (listLoop s fuel p).Ends [] out s') : out = FileTree.listing (l.map fun a => (T.label a).name) := by
  induction fuel generalizing p l out with
  | zero => simp [listLoop] at h
  | succ fuel ih =>
    cases l with
    | nil =>
      cases hp
      simp only [listLoop, Proc.ends_write, Proc.ends_ret] at h
      obtain ⟨o, rfl, rfl, -⟩ := h
      rfl
    | cons a l =>
      obtain ⟨rfl, hl⟩ := hp
      simp only [listLoop, Proc.ends_attempt, Proc.ends_write] at h
      obtain ⟨⟨a', n⟩, hn, o₁, rfl, o₂, rfl, hrest⟩ := h
      obtain ⟨ha, hg⟩ := deref_eq_ok.1 hn
      cases ha
      rw [links_next_of_get hg] at hl
      rw [ih hl hrest, List.map_cons, hR.label_of_get hg]
      simp [FileTree.listing, Node.label]

/-- It comes to its end. -/
theorem exists_listLoop {fuel : ℕ} {p : Ptr ℕ} {l : List ℕ} (hp : Chain (links s.heap).next p l)
    (hlt : ∀ a ∈ l, a < s.heap.length) (hlen : l.length < fuel) : ∃ out, (listLoop s fuel p).Ends [] out s := by
  induction fuel generalizing p l with
  | zero => omega
  | succ fuel ih =>
    cases l with
    | nil =>
      cases hp
      exact ⟨[0], by simp [listLoop]⟩
    | cons a l =>
      obtain ⟨rfl, hl⟩ := hp
      obtain ⟨n, hn⟩ := exists_get (hlt a List.mem_cons_self)
      rw [links_next_of_get hn] at hl
      obtain ⟨out, ho⟩ := ih hl (fun b hb => hlt b (List.mem_cons_of_mem _ hb)) (by simpa using hlen)
      refine ⟨n.name.bytes ++ ([10] ++ out), ?_⟩
      simp only [listLoop, deref_node s.heap hn, Proc.attempt_ok, Proc.ends_write]
      exact ⟨_, rfl, _, rfl, ho⟩

/-- The answer to `c` and the memory that it leaves are what the tree says. -/
def Serves (s : Mem) (T : FileTree Whereabouts) (c : Cmd) (out : List Byte) (s' : Mem) : Prop :=
  ∃ T', T.exec s.garbage c = some (out, T') ∧ Rep s' T'

/-- **`ls`** -/
theorem serves_ls (hR : Rep s T) (h : Step s .ls out s') : Serves s T .ls out s' := by
  obtain rfl := step_ls h
  refine ⟨T, ?_, hR⟩
  replace h : (listDirectory s').Ends [] out s' := h
  simp only [listDirectory, Proc.ends_attempt] at h
  obtain ⟨⟨d, n⟩, hd, h⟩ := h
  obtain ⟨hcur, hg⟩ := deref_eq_ok.1 hd
  have hne : n.child.orNull = n.child := by
    refine Ptr.orNull_of_ne fun e => ?_
    dsimp only at h
    rw [e] at h
    simp [rounds, listLoop, deref] at h
  have hk := hR.kids d
  rw [Links.Kids, links_child_of_get hg, hne] at hk
  rw [FileTree.exec, FileTree.names, hR.here hcur, listLoop_ends hR hk h]
  rfl

theorem ends_ls (hR : Rep s T) (hs : Typed s) {ns : List CStr} (h : T.names = some ns) :
    ∃ out s', Step s .ls out s' := by
  obtain ⟨d, hd, -⟩ := Option.map_eq_some_iff.1 h
  have hcur := hR.of_here hd
  obtain ⟨n, hn, hne⟩ := (hs.cur d hcur).2.get
  have hk := hR.kids d
  have hlt : ∀ a ∈ T.kids d, a < s.heap.length := fun a ha => (hs.heap.kids_filled hk a ha).lt
  have hlen := length_le_of_nodup hk.nodup hlt
  rw [Links.Kids, links_child_of_get hn, Ptr.orNull_of_ne hne] at hk
  obtain ⟨out, ho⟩ := exists_listLoop hk hlt (Nat.lt_succ_of_le hlen)
  refine ⟨out, s, ?_⟩
  show (listDirectory s).Ends [] out s
  rw [listDirectory, hcur, deref_node s.heap hn, Proc.attempt_ok]
  exact ho

/-- **`mkdir`** -/
theorem serves_mkdir (hR : Rep s T) (hs : Typed s) (hL : (links s.heap).Sound) {dirname : CStr}
    (h : Step s (.mkdir dirname) out s') : Serves s T (.mkdir dirname) out s' := by
  replace h : (makeDirectory s).Ends [dirname] out s' := h
  simp only [makeDirectory, Proc.ends_read, Proc.ends_attempt, strcpyName_eq_ok, Proc.ends_ret] at h
  obtain ⟨name, ⟨hfit, rfl⟩, h₁, ha, rfl, rfl⟩ := h
  obtain ⟨d, -, e, -⟩ := attach_eq_ok ha
  rw [e] at ha
  have hd := (hs.cur d e).2.lt
  obtain ⟨l, hk, rfl⟩ := attach_append rfl hd rfl ha
  obtain rfl := (hR.kids d).unique hk
  have hins := hR.insert (n := newDirectory s name) hs hL hd rfl rfl
  refine ⟨_, ?_, hins⟩
  have hm : T.mkdir name ⟨0, (s.garbage T.size).loc_name⟩ =
      some (T.add d (newDirectory s name).label (newDirectory s name).place (newDirectory s name).parent) := by
    rw [FileTree.mkdir, hR.here e, hR.size, hR.cur]
    exact if_pos hfit
  rw [FileTree.exec, hm]
  rfl

theorem ends_mkdir (hR : Rep s T) (hs : Typed s) (hL : (links s.heap).Sound) {dirname : CStr} {x : Whereabouts}
    (h : T.mkdir dirname x = some T') : ∃ out s', Step s (.mkdir dirname) out s' := by
  obtain ⟨d, hd, h⟩ := Option.bind_eq_some_iff.1 h
  have hcur := hR.of_here hd
  split at h
  · next hfit =>
    obtain ⟨h₁, ha⟩ := attach_ok (x := s.heap.length) (hs.heap.append (n := newDirectory s dirname) rfl rfl hs.cur)
      (by rwa [links_append rfl rfl]) ((extends_append s.heap _).filled (hs.cur d hcur).2)
    refine ⟨[], { s with heap := h₁ }, ?_⟩
    show (makeDirectory s).Ends [dirname] [] _
    simp only [makeDirectory, Proc.ends_read, Proc.ends_attempt, strcpyName_eq_ok, Proc.ends_ret]
    exact ⟨dirname, ⟨hfit, rfl⟩, h₁, hcur ▸ ha, trivial, rfl⟩
  · cases h

/-- **`cd`** -/
theorem serves_cd (hR : Rep s T) {dirname : CStr} (h : Step s (.cd dirname) out s') :
    Serves s T (.cd dirname) out s' := by
  rcases step_cd_iff.1 h with ⟨hw, rfl, rfl⟩ | ⟨q, hw, rfl, rfl⟩
  · refine ⟨T, ?_, hR⟩
    rw [FileTree.exec, FileTree.cd, hR.cur, cdWalk_eq hR hw]
    rfl
  · refine ⟨{ T with cur := q }, ?_, hR.size, hR.label, hR.data, hR.parent, hR.kids, rfl⟩
    rw [FileTree.exec, FileTree.cd, hR.cur, cdWalk_eq hR hw]
    rfl

theorem ends_cd (hR : Rep s T) (hs : Typed s) (hL : (links s.heap).Sound) {dirname : CStr}
    {r : Bool × FileTree Whereabouts} (h : T.cd dirname = some r) : ∃ out s', Step s (.cd dirname) out s' := by
  obtain ⟨o, ho, -⟩ := Option.map_eq_some_iff.1 h
  have hw := cdWalk_ok hR hs hL ho
  cases o with
  | none => exact ⟨_, _, step_cd_iff.2 (.inl ⟨hw, rfl, rfl⟩)⟩
  | some q => exact ⟨_, _, step_cd_iff.2 (.inr ⟨q, hw, rfl, rfl⟩)⟩

/-- **`tobigfs`** -/
theorem serves_tobigfs (hR : Rep s T) (hs : Typed s) (hL : (links s.heap).Sound) {filename parts loc : CStr}
    (h : Step s (.tobigfs filename parts loc) out s') : Serves s T (.tobigfs filename parts loc) out s' := by
  replace h : (tobigfs s).Ends [filename, parts, loc] out s' := h
  simp only [tobigfs, Proc.ends_read, Proc.ends_attempt, deref_eq_ok, Prod.exists] at h
  obtain ⟨d, dn, ⟨e, hd⟩, o, hf, h⟩ := h
  have hfind : (T.find d fun e => e.name = baseName filename) = o := find_eq hR (fun _ => rfl) hd hf
  cases o with
  | some a =>
    simp only [reply, Proc.ends_write, Proc.ends_ret] at h
    obtain ⟨o, rfl, rfl, rfl⟩ := h
    refine ⟨T, ?_, hR⟩
    rw [FileTree.exec, FileTree.create, hR.here e, Option.bind_some, hfind, List.append_nil]
    rfl
  | none =>
    simp only [reply, Proc.ends_write, Proc.ends_read, Proc.ends_attempt, strcpyName_eq_ok, Proc.ends_ret] at h
    obtain ⟨o, rfl, name, ⟨hfit, rfl⟩, h₁, ha, rfl, rfl⟩ := h
    rw [e] at ha
    obtain ⟨l, hk, rfl⟩ := attach_append rfl (lt_of_get hd) rfl ha
    obtain rfl := (hR.kids d).unique hk
    have hne : s.heap.length ≠ d := (lt_of_get hd).ne'
    have hnl : s.heap.length ∉ T.kids d := fun hmem => (hs.heap.kids_filled hk _ hmem).lt.ne rfl
    let n : Node := { newFile s (baseName filename) parts with loc_name := loc }
    have hins := hR.insert (n := n) hs hL (lt_of_get hd) rfl rfl
    rw [setLocName, setAfter_modify hne hnl, modify_append]
    refine ⟨_, ?_, hins⟩
    have hc : T.create filename ⟨atoi parts, loc⟩ = some (true, T.add d n.label n.place n.parent) := by
      rw [FileTree.create, hR.here e, Option.bind_some, hfind, hR.cur]
      exact if_pos hfit
    rw [FileTree.exec, hc, List.append_nil]
    rfl

theorem ends_tobigfs (hR : Rep s T) (hs : Typed s) (hL : (links s.heap).Sound) {filename parts loc : CStr}
    {x : Whereabouts} {r : Bool × FileTree Whereabouts} (h : T.create filename x = some r) :
    ∃ out s', Step s (.tobigfs filename parts loc) out s' := by
  obtain ⟨d, hd, h⟩ := Option.bind_eq_some_iff.1 h
  have hcur := hR.of_here hd
  obtain ⟨n, hn, hne⟩ := (hs.cur d hcur).2.get
  obtain ⟨o, hl⟩ : ∃ o, lookup s.heap (baseName filename) n.child = .ok o := find_ok hs.heap hL hn hne
  have hfind : (T.find d fun e => e.name = baseName filename) = o := find_eq hR (fun _ => rfl) hn hl
  rw [hfind] at h
  cases o with
  | some a =>
    refine ⟨(lit "1").z ++ [], s, ?_⟩
    show (tobigfs s).Ends [filename, parts, loc] _ _
    simp only [tobigfs, Proc.ends_read, hcur, deref_node s.heap hn, Proc.attempt_ok, hl, reply, Proc.ends_write,
      Proc.ends_ret]
    exact ⟨[], rfl, rfl, trivial⟩
  | none =>
    dsimp only at h
    split at h
    · next hfit =>
      obtain ⟨h₁, ha⟩ := attach_ok (x := s.heap.length)
        (hs.heap.append (n := newFile s (baseName filename) parts) rfl rfl hs.cur)
        (by rwa [links_append rfl rfl]) ((extends_append s.heap _).filled (hs.cur d hcur).2)
      refine ⟨(lit "0").z ++ [], { s with heap := setLocName h₁ s.heap.length loc }, ?_⟩
      show (tobigfs s).Ends [filename, parts, loc] _ _
      simp only [tobigfs, Proc.ends_read, hcur, deref_node s.heap hn, Proc.attempt_ok, hl, reply, Proc.ends_write,
        Proc.ends_attempt, strcpyName_eq_ok, Proc.ends_ret]
      exact ⟨[], rfl, _, ⟨hfit, rfl⟩, h₁, ha, rfl, rfl⟩
    · cases h

theorem isFile_eq (hR : Rep s T) {a : ℕ} {file : CStr} (ha : a < s.heap.length) :
    isFile s.heap file a = decide ((T.label a).name = file ∧ (T.label a).type = .file) := by
  obtain ⟨n, hn, he⟩ := field_eq_some.1 (hR.label ha)
  rw [Bool.eq_iff_iff, isFile_of_get hn, ← he, decide_eq_true_iff]
  rfl

/-- The file that is shown. -/
theorem get_eq (hR : Rep s T) (hs : Typed s) {file : CStr} (hcur : s.cur = .node d) :
    T.get file = (T.kids d).find? (isFile s.heap file) := by
  rw [FileTree.get, hR.here hcur]
  exact List.find?_congr fun a ha => (isFile_eq hR (hs.heap.kids_filled (hR.kids d) a ha).lt).symm

/-- **`cat` and `frombigfs`** -/
theorem serves_cat (hR : Rep s T) (hs : Typed s) (hL : (links s.heap).Sound) {file : CStr}
    (h : (sendFile s).Ends [file] out s') :
    s' = s ∧ ((T.get file).bind fun a => (T.located a).map fun o => ((lit "1").z ++ o, T)) = some (out, T) := by
  obtain ⟨rfl, d, l, v, vn, hcur, hk, hf, hv, hfit, rfl⟩ := shown hL h
  obtain rfl := (hR.kids d).unique hk
  refine ⟨rfl, ?_⟩
  rw [get_eq hR hs hcur, hf, Option.bind_some, hR.located hv hfit]
  rfl

theorem ends_cat (hR : Rep s T) (hs : Typed s) {file : CStr} {o : List Byte} (hg : T.get file = some v)
    (hl : T.located v = some o) : ∃ out s', Step s (.cat file) out s' := by
  obtain ⟨d, hd, -⟩ := Option.bind_eq_some_iff.1 hg
  have hcur := hR.of_here hd
  rw [get_eq hR hs hcur] at hg
  obtain ⟨n, hn⟩ := exists_get (hs.heap.kids_filled (hR.kids d) v (List.mem_of_find?_eq_some hg)).lt
  exact ⟨_, _, exec_cat hs hcur (hR.kids d) hg hn (hR.fits_located hn hl)⟩

/-- What is taken by `rm`. -/
theorem taken_eq (hR : Rep s T) (hs : Typed s) {file : CStr} {r : Option (ℕ × Heap)}
    (ht : Taken s.heap file d (T.kids d) r) : T.taken d file = r.map Prod.fst := by
  have hlt : ∀ a ∈ T.kids d, a < s.heap.length := fun a ha => (hs.heap.kids_filled (hR.kids d) a ha).lt
  have hname : ∀ {a}, a < s.heap.length → ((T.label a).name = file ↔ field Node.name s.heap a = some file) := by
    intro a ha
    obtain ⟨n, hn, he⟩ := field_eq_some.1 (hR.label ha)
    rw [← he, field_of_get hn, Option.some.injEq]
    rfl
  -- behind the first child, which bears another name, it is the first file
  have hbehind : ∀ {a m}, a < s.heap.length → (∀ b ∈ m, b < s.heap.length) → field Node.name s.heap a ≠ some file →
      (if (T.label a).name = file then some a else
        m.find? fun b => (T.label b).name = file ∧ (T.label b).type = .file) =
        (a :: m).find? (isFile s.heap file) := by
    intro a m ha hm hne
    have hno : isFile s.heap file a = false := by simp [isFile, hne]
    rw [if_neg (fun h => hne ((hname ha).1 h)), List.find?_cons, hno]
    exact List.find?_congr fun b hb => (isFile_eq hR (hm b hb)).symm
  unfold FileTree.taken
  generalize T.kids d = l at ht hlt
  cases ht with
  | missing hf hhead =>
    cases l with
    | nil => rfl
    | cons a l =>
      exact (hbehind (hlt a List.mem_cons_self) (fun b hb => hlt b (List.mem_cons_of_mem _ hb)) (hhead a rfl)).trans hf
  | first hl hg hn =>
    subst hl
    exact if_pos ((hname (lt_of_get hg)).2 (by rw [field_of_get hg, hn]))
  | later hl hf hg hhead =>
    cases l with
    | nil => cases hf
    | cons a l =>
      exact (hbehind (hlt a List.mem_cons_self) (fun b hb => hlt b (List.mem_cons_of_mem _ hb)) (hhead a rfl)).trans hf

/-- **`rm`** -/
theorem serves_rm (hR : Rep s T) (hs : Typed s) (hL : (links s.heap).Sound) {file : CStr}
    (h : Step s (.rm file) out s') : Serves s T (.rm file) out s' := by
  obtain ⟨d, l, v, vn, e, hr, hseg, hv, rfl, rfl⟩ := taken_rm h
  have hd := (hs.cur d e).2.lt
  have hk := hR.kids d
  refine ⟨_, ?_, hR.erase hs hL hd hseg hv⟩
  have htaken : T.taken d file = some v := by
    obtain ⟨r, hr', ht⟩ := removeChild_cases file hs.heap (hs.cur d e).2 hk
    rw [e, hr'] at hr
    obtain rfl := Except.ok.inj hr
    exact taken_eq hR hs ht
  have hfit : (decimal vn.no_of_chunks).bytes.length < 10 := by
    by_contra hno
    have hexec := exec_rm_cut hr hv
    rw [if_neg hno] at hexec
    rw [Step, hexec] at h
    cases (Prod.mk.inj h).2
  rw [FileTree.exec, FileTree.remove, hR.here e]
  simp only [Option.bind_some, htaken, Option.map_some, hR.located hv hfit]
  rfl

theorem ends_rm (hR : Rep s T) (hs : Typed s) {file : CStr} {o : List Byte} (hr : T.remove file = some (v, T'))
    (hl : T.located v = some o) : ∃ out s', Step s (.rm file) out s' := by
  obtain ⟨d, hd, hr⟩ := Option.bind_eq_some_iff.1 hr
  obtain ⟨a, ha, he⟩ := Option.map_eq_some_iff.1 hr
  cases he
  have hcur := hR.of_here hd
  obtain ⟨r, hrem, ht⟩ := removeChild_cases file hs.heap (hs.cur d hcur).2 (hR.kids d)
  rw [taken_eq hR hs ht] at ha
  obtain ⟨⟨v', h'⟩, rfl, rfl⟩ := Option.map_eq_some_iff.1 ha
  -- the node that has been taken keeps the number of its chunks
  obtain ⟨n', hn', hfit⟩ : ∃ n', h'[v']? = some n' ∧ (decimal n'.no_of_chunks).bytes.length < 10 := by
    cases ht with
    | @first v n l₂ _ hg _ =>
      obtain ⟨n', hn', -, hchunks⟩ := get_cut (d := d) (l := []) hg (p := n.next)
      exact ⟨n', hn', by rw [hchunks]; exact hR.fits_located hg hl⟩
    | @later v n l₁ l₂ _ _ hg _ =>
      obtain ⟨n', hn', -, hchunks⟩ := get_cut (d := d) (l := l₁) hg (p := n.next)
      exact ⟨n', hn', by rw [hchunks]; exact hR.fits_located hg hl⟩
  rw [← hcur] at hrem
  exact ⟨_, _, (exec_rm_some hrem hn').trans (if_pos hfit)⟩

/-! ### Moves -/

theorem Rep.mem_kids {x par : ℕ} (hR : Rep s T) (hx : OnOwnChain s.heap x) (hpar : T.parent x = .node par) :
    x ∈ T.kids par := by
  obtain ⟨par', l, hp, hk, hxl⟩ := hx
  have he := hR.parent (lt_of_field hp)
  rw [hp, hpar, Option.some.injEq] at he
  cases he
  rwa [(hR.kids _).unique hk]

theorem Rep.onOwnChain {x par : ℕ} (hR : Rep s T) (hx : x < s.heap.length) (hpar : T.parent x = .node par)
    (hmem : x ∈ T.kids par) : OnOwnChain s.heap x :=
  ⟨par, T.kids par, by rw [hR.parent hx, hpar], hR.kids par, hmem⟩

/-- The type of a node where a path ends. -/
theorem Rep.type_eq {hp : Heap} (hR : Rep { s with heap := hp } T) (hd : hp[d]? = some n) :
    (T.label d).type = n.type :=
  congrArg Tag.type (hR.label_of_get hd)

/-- **`mv`** -/
theorem serves_mv (hR : Rep s T) (hs : Typed s) (hL : (links s.heap).Sound) {source destination : CStr}
    (hmv : MvStanding s (.mv source destination)) (h : Step s (.mv source destination) out s') :
    Serves s T (.mv source destination) out s' := by
  replace h : (movefile s).Ends [source, destination] out s' := h
  simp only [movefile, Proc.ends_read, Proc.ends_attempt] at h
  obtain ⟨o, hw, h⟩ := h
  have hwalk := walkSource_eq hR hw
  rw [← hR.cur] at hwalk
  cases o with
  | none =>
    simp only [reply, Proc.ends_write, Proc.ends_ret] at h
    obtain ⟨o, rfl, rfl, rfl⟩ := h
    refine ⟨T, ?_, hR⟩
    simp only [FileTree.exec, FileTree.move, hwalk, List.append_nil]
    rfl
  | some temp_cur =>
    simp only [Proc.ends_attempt, deref_eq_ok, Prod.exists] at h
    obtain ⟨x, xn, ⟨rfl, hx⟩, h₁, hu, dst, hdst, d, dn, ⟨ed, hd⟩, h⟩ := h
    have hown := hmv _ _ x rfl (walkSource_eq_some hw)
    have hunl := unlinked_of_unlink hu
    obtain ⟨par, hpar, hR₁⟩ := hR.detach hs hL hown hunl
    obtain ⟨hL₁, hloose, -⟩ := hunl.sound hs.heap hL (.inl hown)
    have h0 := hunl.next_null hs.heap hL (.inl hown)
    have hs₁ := hunl.shaped hs.heap
    have hdest := walkDestination_eq hR₁ hdst
    rw [← hR.cur] at hdest
    obtain ⟨temp_cur2, flag, found2⟩ := dst
    obtain rfl : temp_cur2 = .node d := ed
    have hmove : T.move source destination = if dn.type = .file ∨ flag then some (false, T.detach x par)
        else if found2.all (FileTree.Fits ·) then some (true, (T.detach x par).moveTo x d found2) else none := by
      simp only [FileTree.move, hwalk, hpar, hdest, if_pos (hR.mem_kids hown hpar), hR₁.type_eq hd]
    rw [Serves, FileTree.exec, hmove]
    split at h
    · next hbad =>
      simp only [reply, Proc.ends_write, Proc.ends_ret] at h
      obtain ⟨o, rfl, rfl, rfl⟩ := h
      rw [if_pos hbad, List.append_nil]
      exact ⟨_, rfl, hR₁⟩
    · next hok =>
      rw [if_neg hok]
      simp only [Proc.ends_attempt] at h
      obtain ⟨h₃, ha, h⟩ := h
      obtain ⟨e, l, he, -, hk, -, rfl⟩ := attach_eq_ok ha
      cases he
      rw [links_setParent] at hk
      obtain rfl := (hR₁.kids d).unique hk
      have hxname : field Node.name h₁ x = some xn.name := by
        rw [hunl.field_eq (fun _ _ => rfl) fun _ _ => rfl]
        exact field_of_get hx
      have hmoved := hR₁.moveTo hs₁ hL₁ (lt_of_get hd) (lt_of_field hxname) hloose h0 found2
      cases found2 with
      | none =>
        simp only [reply, Proc.ends_write, Proc.ends_ret] at h
        obtain ⟨o, rfl, rfl, rfl⟩ := h
        rw [List.append_nil]
        exact ⟨_, rfl, hmoved⟩
      | some found2 =>
        simp only [reply, Proc.ends_attempt, strcpyName_eq_ok, Proc.ends_write, Proc.ends_ret] at h
        obtain ⟨name, ⟨hfit, rfl⟩, o, rfl, rfl, rfl⟩ := h
        have hall : (some name).all (FileTree.Fits ·) = true := decide_eq_true hfit
        rw [List.append_nil, if_pos hall]
        exact ⟨_, rfl, hmoved⟩

theorem standing_of_move {source destination : CStr} {r : Bool × FileTree Whereabouts} (hR : Rep s T) (hs : Typed s)
    (h : T.move source destination = some r) : MvStanding s (.mv source destination) := by
  intro source' destination' x e hx
  cases e
  have hfill : x < s.heap.length := (inside_node.1 (hs.heap.resolve_filled hx hs.cur.inside)).lt
  have hwalk := walkSource_eq hR (walkSource_of_resolve hs.heap hs.cur.inside hx)
  rw [← hR.cur] at hwalk
  unfold FileTree.move at h
  rw [hwalk] at h
  dsimp only at h
  split at h
  · next par hpar =>
    split at h
    · next hmem => exact hR.onOwnChain hfill hpar hmem
    · cases h
  · cases h

theorem ends_mv (hR : Rep s T) (hs : Typed s) (hL : (links s.heap).Sound) {source destination : CStr}
    {r : Bool × FileTree Whereabouts} (h : T.move source destination = some r) :
    ∃ out s', Step s (.mv source destination) out s' := by
  unfold FileTree.move at h
  split at h
  · next hw =>
    refine ⟨(lit "1").z, s, ?_⟩
    show (movefile s).Ends [source, destination] _ _
    simp [movefile, reply, walkSource_ok hR hs hL hw]
  · next x hw =>
    have hx : x < s.heap.length := by
      rw [← hR.size]
      exact FileTree.walk_lt (hR.closed hs) (fun a ha => (hR.closed hs).cur ha) hw
    obtain ⟨xn, hxn⟩ := exists_get hx
    split at h
    · next par hpar =>
      split at h
      · next hmem =>
        have hown := hR.onOwnChain hx hpar hmem
        obtain ⟨h₁, hu⟩ := unlink_ok hs.heap hL hown
        have hunl := unlinked_of_unlink hu
        obtain ⟨par', hpar', hR₁⟩ := hR.detach hs hL hown hunl
        rw [hpar] at hpar'
        cases hpar'
        have hs₁ : Typed { s with heap := h₁ } := ⟨hunl.shaped hs.heap, hs.cur.mono (hunl.extends hs.heap)⟩
        have hL₁ := (hunl.sound hs.heap hL (.inl hown)).1
        split at h
        · next d flag new hd =>
          have hdst := walkDestination_ok hR₁ hs₁.heap hL₁ hs₁.cur.inside ((congrArg _ hR.cur.symm).trans hd)
          have hdlt : d < h₁.length := by
            rw [← hR₁.size]
            exact FileTree.dest_lt (hR₁.closed hs₁) (fun a ha => (hR₁.closed hs₁).cur ha) hd
          obtain ⟨dn, hdn⟩ := exists_get hdlt
          have htype := hR₁.type_eq hdn
          rw [htype] at h
          split at h
          · next hbad =>
            refine ⟨(lit "1").z, { s with heap := h₁ }, ?_⟩
            show (movefile s).Ends [source, destination] _ _
            simp [movefile, reply, walkSource_ok hR hs hL hw, deref_node s.heap hxn, hu, hdst, deref_node h₁ hdn, hbad]
          · next hok =>
            split at h
            · next hfit =>
              have hdir : DirPtr h₁ (.node d) := dirPtr_node.2 ⟨type_of_ne_file hdn (not_or.1 hok).1,
                hs₁.heap.dest_filled (walkDestination_eq_ok hdst (by simpa using (not_or.1 hok).2) rfl) hs₁.cur.inside⟩
              obtain ⟨h₃, ha⟩ : ∃ h₃, attach (setParent h₁ x (.node d)) (.node d) x = .ok h₃ :=
                attach_ok (hs₁.heap.setParent hdir) (by rwa [links_setParent])
                  (extends_setParent.filled (dirPtr_node.1 hdir).2)
              cases new with
              | none =>
                refine ⟨(lit "0").z, { s with heap := h₃ }, ?_⟩
                show (movefile s).Ends [source, destination] _ _
                simp [movefile, reply, walkSource_ok hR hs hL hw, deref_node s.heap hxn, hu, hdst, deref_node h₁ hdn,
                  hok, ha]
              | some new =>
                have hlt : new.bytes.length < nameSize := of_decide_eq_true hfit
                refine ⟨(lit "0").z, { s with heap := setName h₃ x new }, ?_⟩
                show (movefile s).Ends [source, destination] _ _
                simp [movefile, reply, walkSource_ok hR hs hL hw, deref_node s.heap hxn, hu, hdst, deref_node h₁ hdn,
                  hok, ha, strcpyName, hlt]
            · cases h
        · cases h
      · cases h
    · cases h
  · cases h

/-! ### Copies -/

theorem sprintfChunks_eq_ok {k : ℤ} {t : CStr} :
    sprintfChunks k = .ok t ↔ (decimal k).bytes.length < 10 ∧ t = decimal k := by
  unfold sprintfChunks
  split <;> simp_all [eq_comm]

theorem dest_new_unique {h : Heap} {p : Ptr ℕ} {l : List CStr} {d d' : ℕ} {new new' : Option CStr}
    (h₁ : Dest h p l d new) (h₂ : Dest h p l d' new') : new = new' := by
  have hne : ∀ {d d' new}, Dest h p l d none → Dest h p l d' (some new) → False := by
    rintro d d' new hnone ⟨init, n, rfl, hdd, hdot, hr, hd, hm⟩
    exact hm.not_resolve hdd hdot hr hd hnone
  cases new with
  | none =>
    cases new' with
    | none => rfl
    | some new' => exact (hne h₁ h₂).elim
  | some new =>
    cases new' with
    | none => exact (hne h₂ h₁).elim
    | some new' =>
      obtain ⟨init, n, rfl, -⟩ := h₁
      obtain ⟨init', n', he, -⟩ := h₂
      exact congrArg some (List.cons.inj (List.append_inj' he rfl).2).1

/-- **`cp`** -/
theorem serves_cp (hR : Rep s T) (hs : Typed s) (hL : (links s.heap).Sound) {source destination loc : CStr}
    (h : Step s (.cp source destination loc) out s') : Serves s T (.cp source destination loc) out s' := by
  have hcases := cp_cases hs h
  have hclosed := hR.closed hs
  replace h : (copyfile s).Ends [source, destination, loc] out s' := h
  simp only [copyfile, Proc.ends_read, Proc.ends_attempt] at h
  obtain ⟨o, hw, h⟩ := h
  have hwalk := walkSource_eq hR hw
  rw [← hR.cur] at hwalk
  cases o with
  | none =>
    simp only [reply, Proc.ends_write, Proc.ends_ret] at h
    obtain ⟨o, rfl, rfl, rfl⟩ := h
    refine ⟨T, ?_, hR⟩
    simp only [FileTree.exec, FileTree.copying, hwalk, List.append_nil]
  | some temp_cur =>
    simp only [Proc.ends_attempt, deref_eq_ok, Prod.exists] at h
    obtain ⟨x, xn, ⟨rfl, hx⟩, dst, hdst, d, dn, ⟨ed, hd⟩, h⟩ := h
    have hlost := hR.lose (n := newCopy s xn) rfl rfl
    have hdest := walkDestination_eq hlost hdst
    rw [← hR.cur, FileTree.dest_grow hclosed fun a ha => hclosed.cur ha] at hdest
    obtain ⟨temp_cur2, flag, found2⟩ := dst
    obtain rfl : temp_cur2 = .node d := ed
    have hdlt : d < s.heap.length := by
      rw [← hR.size]
      exact FileTree.dest_lt hclosed (fun a ha => hclosed.cur ha) hdest
    rw [get_append_of_lt _ hdlt] at hd
    have htype : (T.label d).type = dn.type := congrArg Tag.type (hR.label_of_get hd)
    have hxl := hR.label_of_get hx
    have hxd := hR.data_of_get hx
    have hcopying : T.copying source destination = if dn.type = .file ∨ flag then some (.refused x)
        else if found2.all (FileTree.Fits ·) then some (.goes x d found2) else none := by
      simp only [FileTree.copying, hwalk, hdest, htype]
    split at h
    · next hbad =>
      simp only [reply, Proc.ends_write, Proc.ends_ret] at h
      obtain ⟨o, rfl, rfl, rfl⟩ := h
      refine ⟨_, ?_, hlost⟩
      rw [FileTree.exec, hcopying, if_pos hbad, List.append_nil]
      dsimp only
      rw [hxl, hxd, hR.size]
      rfl
    · next hok =>
      simp only [Proc.ends_attempt, reply, sendLocation, Proc.ends_write, elim_strcpyName, sprintfChunks_eq_ok] at h
      obtain ⟨h₃, -, name, ⟨hall, -⟩, o₁, ho, o₂, -, chunks, ⟨hfit, -⟩, -⟩ := h
      have hlocated := hR.located hx hfit
      simp only [not_or, Bool.not_eq_true] at hok
      have hDest := (hs.heap.dest_append rfl hs.cur.inside).1 (walkDestination_eq_ok hdst hok.2 rfl)
      rcases hcases with ⟨ho', -⟩ | ⟨x', d', xn', new, l, hc⟩
      · have hz : (lit "0").z = [48, 0] ∧ (lit "1").z = [49, 0] := by decide
        rw [ho, hz.1, hz.2] at ho'
        simp at ho'
      · cases (walkSource_eq_some hw).unique hc.source
        obtain rfl := hDest.unique hc.destination
        obtain rfl := dest_new_unique hDest hc.destination
        have hg := hc.get
        rw [hx, Option.some.injEq] at hg
        subst hg
        obtain rfl := (hR.kids d).unique hc.kids
        have hgrow := hR.grow (n := copyNode s xn (found2.getD xn.name) loc) hs hL hdlt (lt_of_get hx) rfl rfl
        rw [← hc.eq] at hgrow
        refine ⟨_, ?_, hgrow⟩
        rw [FileTree.exec, hcopying, if_neg (by simpa using hok), if_pos hall, hc.out]
        simp only [hlocated, Option.map_some, FileTree.addCopy, hxl, hxd]
        rfl

theorem ends_cp (hR : Rep s T) (hs : Typed s) (hL : (links s.heap).Sound) {source destination loc : CStr}
    {r : FileTree.Copying} (h : T.copying source destination = some r)
    (hloc : ∀ x d new, r = .goes x d new → ∃ o, T.located x = some o) :
    ∃ out s', Step s (.cp source destination loc) out s' := by
  have hclosed := hR.closed hs
  unfold FileTree.copying at h
  split at h
  · next hw =>
    refine ⟨(lit "1").z, s, ?_⟩
    show (copyfile s).Ends [source, destination, loc] _ _
    simp [copyfile, reply, walkSource_ok hR hs hL hw]
  · next x hw =>
    have hx : x < s.heap.length := by
      rw [← hR.size]
      exact FileTree.walk_lt hclosed (fun a ha => hclosed.cur ha) hw
    obtain ⟨xn, hxn⟩ := exists_get hx
    have hs₁ : Shaped (s.heap ++ [newCopy s xn]) := hs.heap.append rfl rfl fun _ e => by cases e
    have hL₁ : (links (s.heap ++ [newCopy s xn])).Sound := by rwa [links_append rfl rfl]
    have hin₁ := (hs.cur.mono (extends_append s.heap (newCopy s xn))).inside
    split at h
    · next d flag new hd =>
      have hdlt : d < s.heap.length := by
        rw [← hR.size]
        exact FileTree.dest_lt hclosed (fun a ha => hclosed.cur ha) hd
      have hdst := walkDestination_ok (hR.lose (n := newCopy s xn) rfl rfl) hs₁ hL₁ hin₁
        ((FileTree.dest_grow hclosed fun a ha => hclosed.cur (hR.cur.trans ha)).trans
          ((congrArg _ hR.cur.symm).trans hd))
      obtain ⟨dn, hdn⟩ := exists_get hdlt
      have htype : (T.label d).type = dn.type := congrArg Tag.type (hR.label_of_get hdn)
      rw [htype] at h
      rw [← get_append_of_lt (newCopy s xn) hdlt] at hdn
      split at h
      · next hbad =>
        refine ⟨(lit "1").z, { s with heap := s.heap ++ [newCopy s xn] }, ?_⟩
        show (copyfile s).Ends [source, destination, loc] _ _
        simp [copyfile, reply, walkSource_ok hR hs hL hw, deref_node s.heap hxn, hdst, deref_node _ hdn, hbad]
      · next hok =>
        split at h
        · next hfit =>
          cases h
          obtain ⟨o, ho⟩ := hloc x d new rfl
          have hchunks := hR.fits_located hxn ho
          have hdir : DirPtr (s.heap ++ [newCopy s xn]) (.node d) :=
            dirPtr_node.2 ⟨type_of_ne_file hdn (not_or.1 hok).1,
              hs₁.dest_filled (walkDestination_eq_ok hdst (by simpa using (not_or.1 hok).2) rfl) hin₁⟩
          obtain ⟨h₃, ha⟩ : ∃ h₃, attach (setParent (s.heap ++ [newCopy s xn]) x (.node d)) (.node d) s.heap.length =
              .ok h₃ :=
            attach_ok (hs₁.setParent hdir) (by rwa [links_setParent]) (extends_setParent.filled (dirPtr_node.1 hdir).2)
          have hname : new.elim (.ok xn.name) strcpyName = .ok (new.getD xn.name) := elim_strcpyName.2 ⟨hfit, rfl⟩
          refine ⟨(lit "0").z ++ (xn.loc_name.z ++ (decimal xn.no_of_chunks).z), { s with
            heap := setLocName (setChild (setName h₃ s.heap.length (new.getD xn.name)) s.heap.length .null)
              s.heap.length loc }, ?_⟩
          show (copyfile s).Ends [source, destination, loc] _ _
          simp [copyfile, reply, sendLocation, walkSource_ok hR hs hL hw, deref_node s.heap hxn, hdst, deref_node _ hdn,
            hok, ha, hname, sprintfChunks, hchunks]
        · cases h
    · cases h
  · cases h

/-! ### Runs -/

theorem garbage_step (hs : Typed s) (h : Step s c out s') : s'.garbage = s.garbage := by
  cases step_cases hs h <;> rfl

/-- **One command**: the server does what the tree says. -/
theorem serves_step (hR : Rep s T) (hs : Typed s) (hL : (links s.heap).Sound) (hmv : MvStanding s c)
    (h : Step s c out s') : Serves s T c out s' := by
  cases c with
  | ls => exact serves_ls hR h
  | mkdir dirname => exact serves_mkdir hR hs hL h
  | cd dirname => exact serves_cd hR h
  | tobigfs filename no_of_chunks loc => exact serves_tobigfs hR hs hL h
  | cat file | frombigfs file =>
    obtain ⟨rfl, hout⟩ := serves_cat hR hs hL (show (sendFile s).Ends [file] out s' from h)
    exact ⟨T, hout, hR⟩
  | rm file => exact serves_rm hR hs hL h
  | mv source destination => exact serves_mv hR hs hL hmv h
  | cp source destination loc => exact serves_cp hR hs hL h

/-- Where the tree says something, the server comes to the end of the command. -/
theorem ends_of_exec {r : List Byte × FileTree Whereabouts} (hR : Rep s T) (hs : Typed s) (hL : (links s.heap).Sound)
    (h : T.exec s.garbage c = some r) : ∃ out s', Step s c out s' := by
  cases c with
  | ls =>
    obtain ⟨ns, hn, -⟩ := Option.map_eq_some_iff.1 h
    exact ends_ls hR hs hn
  | mkdir dirname =>
    obtain ⟨T', hm, -⟩ := Option.map_eq_some_iff.1 h
    exact ends_mkdir hR hs hL hm
  | cd dirname =>
    obtain ⟨r, hc, -⟩ := Option.map_eq_some_iff.1 h
    exact ends_cd hR hs hL hc
  | tobigfs filename no_of_chunks loc =>
    obtain ⟨r, hc, -⟩ := Option.map_eq_some_iff.1 h
    exact ends_tobigfs hR hs hL hc
  | cat file | frombigfs file =>
    obtain ⟨v, hv, h⟩ := Option.bind_eq_some_iff.1 h
    obtain ⟨o, ho, -⟩ := Option.map_eq_some_iff.1 h
    obtain ⟨out, s', hst⟩ := ends_cat hR hs hv ho
    exact ⟨out, s', hst⟩
  | rm file =>
    obtain ⟨⟨v, T'⟩, hv, h⟩ := Option.bind_eq_some_iff.1 h
    obtain ⟨o, ho, -⟩ := Option.map_eq_some_iff.1 h
    exact ends_rm hR hs hv ho
  | mv source destination =>
    obtain ⟨r, hm, -⟩ := Option.map_eq_some_iff.1 h
    exact ends_mv hR hs hL hm
  | cp source destination loc =>
    cases hc : T.copying source destination with
    | none =>
      rw [FileTree.exec, hc] at h
      cases h
    | some r =>
      refine ends_cp hR hs hL hc ?_
      rintro x d new rfl
      rw [FileTree.exec, hc] at h
      obtain ⟨o, ho, -⟩ := Option.map_eq_some_iff.1 h
      exact ⟨o, ho⟩

/-- **One answer**: what the tree says, the server does. -/
theorem answers (hR : Rep s T) (hs : Typed s) (hL : (links s.heap).Sound) (h : T.exec s.garbage c = some (out, T')) :
    MvStanding s c ∧ ∃ s', Step s c out s' ∧ Rep s' T' := by
  have hmv : MvStanding s c := by
    cases c with
    | mv source destination =>
      obtain ⟨r, hm, -⟩ := Option.map_eq_some_iff.1 h
      exact standing_of_move hR hs hm
    | _ => exact fun _ _ _ e => by cases e
  obtain ⟨out', s', hst⟩ := ends_of_exec hR hs hL h
  obtain ⟨T'', hexec, hR'⟩ := serves_step hR hs hL hmv hst
  rw [h, Option.some.injEq, Prod.mk.injEq] at hexec
  obtain ⟨rfl, rfl⟩ := hexec
  exact ⟨hmv, s', hst, hR'⟩

theorem rep_home (garbage : ℕ → Node) : Rep (fresh garbage) (.home (garbage 0).place) where
  size := rfl
  label {a} ha := by
    obtain rfl : a = 0 := by simpa [fresh] using ha
    rfl
  data {a} ha := by
    obtain rfl : a = 0 := by simpa [fresh] using ha
    rfl
  parent {a} ha := by
    obtain rfl : a = 0 := by simpa [fresh] using ha
    rfl
  kids d := by
    show Chain _ _ []
    cases d <;> simp [links, field, fresh]
  cur := rfl

/-- The tree after a list of commands. -/
def FileTree.execAll (garbage : ℕ → Node) (T : FileTree Whereabouts) (cs : List Cmd) : Option (FileTree Whereabouts) :=
  cs.foldlM (fun T c => (T.exec garbage c).map Prod.snd) T

theorem FileTree.execAll_concat {garbage : ℕ → Node} {cs : List Cmd} :
    T.execAll garbage (cs ++ [c]) = (T.execAll garbage cs).bind fun T => (T.exec garbage c).map Prod.snd := by
  simp [FileTree.execAll, List.foldlM_append]

/-- What holds in a run. -/
theorem run_rep {garbage : ℕ → Node} {cs : List Cmd} (h : Run MvStanding (fresh garbage) cs s) :
    Typed s ∧ (links s.heap).Sound ∧ s.garbage = garbage ∧
      ∃ T, (FileTree.home (garbage 0).place).execAll garbage cs = some T ∧ Rep s T := by
  induction h with
  | nil => exact ⟨typed_fresh garbage, sound_fresh garbage, rfl, _, rfl, rep_home garbage⟩
  | snoc _ hmv hstep ih =>
    obtain ⟨hs, hL, hg, T, hT, hR⟩ := ih
    obtain ⟨T', hexec, hR'⟩ := serves_step hR hs hL hmv hstep
    refine ⟨hs.step hstep, sound_step hs hL hmv.alone.ok hstep, (garbage_step hs hstep).trans hg, T', ?_, hR'⟩
    rw [FileTree.execAll_concat, hT, ← hg]
    simp [hexec]

/-- **The server keeps the tree.**  What the tree says of a list of commands, the server does; and however it has been
used, it has done what the tree says, and answers the next command if and only if the tree does, and as it does. -/
theorem serves_tree {garbage : ℕ → Node} {cs : List Cmd} :
    (∀ T, (FileTree.home (garbage 0).place).execAll garbage cs = some T →
      ∃ s, Run MvStanding (fresh garbage) cs s ∧ Rep s T) ∧
    ∀ s, Run MvStanding (fresh garbage) cs s →
      ∃ T, (FileTree.home (garbage 0).place).execAll garbage cs = some T ∧ Rep s T ∧
        ∀ c out, (∃ s', MvStanding s c ∧ Step s c out s') ↔ ∃ T', T.exec garbage c = some (out, T') := by
  constructor
  · intro T hT
    induction cs using List.reverseRec generalizing T with
    | nil =>
      cases hT
      exact ⟨_, .nil, rep_home garbage⟩
    | append_singleton cs c ih =>
      rw [FileTree.execAll_concat] at hT
      obtain ⟨T₀, hT₀, hT⟩ := Option.bind_eq_some_iff.1 hT
      obtain ⟨⟨out, T'⟩, hexec, rfl⟩ := Option.map_eq_some_iff.1 hT
      obtain ⟨s, hrun, hR⟩ := ih T₀ hT₀
      obtain ⟨hs, hL, rfl, -⟩ := run_rep hrun
      obtain ⟨hmv, s', hst, hR'⟩ := answers hR hs hL hexec
      exact ⟨s', hrun.snoc hmv hst, hR'⟩
  · intro s hrun
    obtain ⟨hs, hL, rfl, T, hT, hR⟩ := run_rep hrun
    refine ⟨T, hT, hR, fun c out => ?_⟩
    constructor
    · rintro ⟨s', hmv, hst⟩
      obtain ⟨T', hexec, -⟩ := serves_step hR hs hL hmv hst
      exact ⟨T', hexec⟩
    · rintro ⟨T', hexec⟩
      obtain ⟨hmv, s', hst, -⟩ := answers hR hs hL hexec
      exact ⟨s', hmv, hst⟩

end Commands

/-- After `mv a d` the tree has `a` below `d` alone, and `ls` is answered with `d`. -/
theorem serves_tree_moved : ∃ T s s', (FileTree.home (zeroed 0).place).execAll zeroed
      [.mkdir (lit "a"), .mkdir (lit "d"), .mv (lit "a") (lit "d")] = some T ∧ T.kids home = [2] ∧ T.kids 2 = [1] ∧
    Run MvStanding (fresh zeroed) [.mkdir (lit "a"), .mkdir (lit "d"), .mv (lit "a") (lit "d")] s ∧
    Step s .ls ((lit "d").bytes ++ [10, 0]) s' := by
  obtain ⟨T, hT, hhome, hd, hls⟩ : ∃ T ∈ (FileTree.home (zeroed 0).place).execAll zeroed
      [.mkdir (lit "a"), .mkdir (lit "d"), .mv (lit "a") (lit "d")], T.kids home = [2] ∧ T.kids 2 = [1] ∧
        (T.exec zeroed .ls).map Prod.fst = some ((lit "d").bytes ++ [10, 0]) := by decide
  obtain ⟨s, hrun, -⟩ := serves_tree.1 T hT
  obtain ⟨T₁, hT₁, -, hnext⟩ := serves_tree.2 s hrun
  obtain rfl : T₁ = T := Option.some.inj (hT₁.symm.trans hT)
  obtain ⟨⟨out, T'⟩, hexec, rfl⟩ := Option.map_eq_some_iff.1 hls
  obtain ⟨s', -, hst⟩ := (hnext .ls _).2 ⟨T', hexec⟩
  exact ⟨T₁, s, s', hT, hhome, hd, hrun, hst⟩

end NetProg.NameServer
