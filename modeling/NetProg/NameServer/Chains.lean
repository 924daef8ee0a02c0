import NetProg.NameServer.Room

/-!
# Sibling chains

The child chains stay finite and disjoint (`Links.Sound`) as long as `mv` unlinks nodes from the chain they stand on
(`MvOk`): the source stands on the chain of the directory its field `parent` points to, or it and the nodes behind it
stand on no chain at all.  `cp` sends the field `parent` of its source elsewhere, and a later `mv` of that node then
breaks the chains.

On sound chains no loop of the server runs forever: a chain has no more nodes than the heap.
-/

namespace NetProg.NameServer

open NetProg.Lib

/-- `x` stands on the chain of the directory its field `parent` points to. -/
def OnOwnChain (h : Heap) (x : ℕ) : Prop :=
  ∃ par l, field Node.parent h x = some (.node par) ∧ (links h).Kids par l ∧ x ∈ l

/-- Neither `x` nor a node behind it stands on a chain. -/
def Loose (h : Heap) (x : ℕ) : Prop := ∀ m, Chain (links h).next (.node x) m → ∀ a ∈ m, (links h).Off a

/-- If the source of a `mv` is found, it is unlinked from where it stands. -/
def MvOk (s : Mem) (c : Cmd) : Prop :=
  ∀ source destination x, c = .mv source destination →
    Resolve s.heap anyNode s.cur (fields slash source) (.node x) → OnOwnChain s.heap x ∨ Loose s.heap x

section

variable {s s' : Mem} {h h' : Heap} {a b d x : ℕ} {p : Ptr ℕ} {l m : List ℕ} {n : Node} {c : Cmd} {out : List Byte}

theorem off_length (hs : Shaped h) : (links h).Off h.length :=
  fun _ _ hk hmem => (hs.kids_filled hk _ hmem).lt.ne rfl

theorem links_next_of_ge (ha : h.length ≤ a) : (links h).next a = .null := by
  simp [links_next, field, List.getElem?_eq_none ha]

theorem links_cut_of_get (hs : Shaped h) (hd : d < h.length) (hl : ∀ a ∈ l, Filled h a) (hx : h[x]? = some n) :
    links (cut h d l x n.next) = ((links h).setAfter d l ((links h).next x)).clear x := by
  rw [links_cut hd (fun a ha => (hl a ha).lt) (lt_of_get hx) (hs.next (field_of_get hx)).ne_unassigned,
    links_next_of_get hx]

/-- The chain that it stands on is the one of its parent. -/
theorem OnOwnChain.mem (hx : OnOwnChain h x) (hg : h[x]? = some n) (hp : n.parent = .node d)
    (hk : (links h).Kids d l) : x ∈ l := by
  obtain ⟨par', l', hp', hk', hxl⟩ := hx
  rw [field_of_get hg, hp] at hp'
  cases hp'
  rwa [hk'.unique hk] at hxl

/-- Nothing stands behind the last node of a chain. -/
theorem loose_of_next_null (hoff : (links h).Off x) (h0 : (links h).next x = .null) : Loose h x := by
  intro m hm a ha
  cases m with
  | nil => cases ha
  | cons y m =>
    obtain ⟨e, hm⟩ := hm
    cases e
    rw [h0] at hm
    cases m with
    | nil => simpa using (List.mem_singleton.1 ha) ▸ hoff
    | cons z m => cases hm.1

/-- What unlinking makes of sound chains: nothing, where no node of the chain bears the name of the source, or the nodes
from the first of that name up to the source go. -/
theorem Unlinked.sound (hs : Shaped h) (hL : (links h).Sound) (hu : Unlinked h x h')
    (hok : OnOwnChain h x ∨ Loose h x) :
    (links h').Sound ∧ Loose h' x ∧ ∃ xn par, h[x]? = some xn ∧ xn.parent = .node par ∧
      ((h' = h ∧ ∃ l, (links h).Kids par l ∧ NotNamed h xn.name l) ∨
        ∃ l v r m, (links h).Kids par (l ++ v :: r) ∧ NotNamed h xn.name l ∧ field Node.name h v = some xn.name ∧
          Chain (links h).next (.node x) (x :: m) ∧ ((∃ t, v :: r = t ++ x :: m) ∨ ∀ a ∈ x :: m, (links h).Off a) ∧
          (links h').next x = .null ∧ (links h').Kids par (l ++ m) ∧
          ∀ e le, e ≠ par → ((links h).Kids e le ↔ (links h').Kids e le)) := by
  cases hu with
  | @kept xn par l hx hpar hk hn =>
    have hloose : Loose h x :=
      hok.resolve_left fun hown => hn.notMem (field_of_get hx) (hown.mem hx hpar hk)
    exact ⟨hL, hloose, xn, par, hx, hpar, Or.inl ⟨rfl, l, hk, hn⟩⟩
  | @cut xn par l v hx hpar hv hn hname =>
    obtain ⟨r, hr⟩ := hL.rest v
    have hd : (links h).Kids par (l ++ v :: r) := chain_append.2 ⟨_, hv, rfl, hr⟩
    obtain ⟨m, hm⟩ := hL.rest x
    -- a node of the name of `x` on the chain stands behind `l`
    have hcase : (∃ t, v :: r = t ++ x :: m) ∨ ∀ a ∈ x :: m, (links h).Off a := by
      rcases hok with hown | hloose
      · rcases List.mem_append.1 (hown.mem hx hpar hd) with hxl | hxl
        · exact absurd hxl (hn.notMem (field_of_get hx))
        · obtain ⟨t, m', e⟩ := List.append_of_mem hxl
          rw [e, ← List.append_assoc] at hd
          rw [Chain.unique hm (Chain.suffix hd)]
          exact Or.inl ⟨t, e⟩
      · exact Or.inr (hloose (x :: m) ⟨rfl, hm⟩)
    have hmem : ∀ a ∈ x :: m, ∀ e le, (links h).Kids e le → a ∈ le → e = par ∧ a ∈ v :: r := by
      intro a ha e le he hae
      rcases hcase with ⟨t, et⟩ | hoff
      · have har : a ∈ v :: r := et ▸ List.mem_append_right _ ha
        exact ⟨hL.disjoint he hd hae (List.mem_append_right _ har), har⟩
      · exact absurd hae (hoff a ha e le he)
    have hlt := (hs.parent (field_of_get hx) par hpar).2.lt
    have hlinks := links_cut_of_get hs hlt (hs.seg_filled hv (hs.links_child par).inside).1 hx
    obtain ⟨h1, h2, h3, h4⟩ := hL.unlink hd hm hmem
    rw [← hlinks] at h1 h2 h3 h4
    have h0 : (links (NameServer.cut h par l x xn.next)).next x = .null := by rw [hlinks, Links.clear]; simp
    exact ⟨h1, loose_of_next_null h2 h0, xn, par, hx, hpar,
      Or.inr ⟨l, v, r, m, hd, hn, hname, ⟨rfl, hm⟩, hcase, h0, h3, h4⟩⟩

/-! ### Nodes that are linked in and taken out -/

theorem links_insert (hs : Shaped h) (hd : d < h.length) (hk : (links h).Kids d l) (hc : n.child.orNull = .null)
    (hn : n.next = .null) {h₂ : Heap} (he : links h₂ = links (h ++ [n])) (hlen : h₂.length = h.length + 1) :
    links (setAfter h₂ d l (.node h.length)) = (links h).setAfter d l (.node h.length) := by
  have hl := hs.kids_filled hk
  rw [links_setAfter (by omega) (fun a ha => by have := (hl a ha).lt; omega) (by simp), he, links_append hc hn]

theorem sound_insert (hs : Shaped h) (hL : (links h).Sound) (hd : d < h.length) (hk : (links h).Kids d l)
    (hc : n.child.orNull = .null) (hn : n.next = .null) {h₂ : Heap} (he : links h₂ = links (h ++ [n]))
    (hlen : h₂.length = h.length + 1) :
    (links (setAfter h₂ d l (.node h.length))).Sound ∧
      (links (setAfter h₂ d l (.node h.length))).Kids d (l ++ [h.length]) ∧
      ∀ e le, e ≠ d → ((links h).Kids e le ↔ (links (setAfter h₂ d l (.node h.length))).Kids e le) := by
  rw [links_insert hs hd hk hc hn he hlen]
  refine hL.append hk (by rw [links_next_of_ge le_rfl]; rfl) fun a ha => ?_
  rw [List.mem_singleton] at ha
  exact ha ▸ off_length hs

theorem links_move (hs : Shaped h) (hd : d < h.length) (hk : (links h).Kids d l) {p : Ptr ℕ} {new : Option CStr} :
    links (rename (setAfter (setParent h x p) d l (.node x)) x new) = (links h).setAfter d l (.node x) := by
  have hl := hs.kids_filled hk
  have : links (setAfter (setParent h x p) d l (.node x)) = (links h).setAfter d l (.node x) := by
    rw [links_setAfter (by simpa using hd) (fun a ha => by simpa using (hl a ha).lt) (by simp), links_setParent]
  cases new with
  | none => exact this
  | some new => exact links_setName.trans this

theorem sound_move (hs : Shaped h) (hL : (links h).Sound) (hd : d < h.length) (hk : (links h).Kids d l)
    (hx : Loose h x) (hm : Chain (links h).next (.node x) (x :: m)) {p : Ptr ℕ} (new : Option CStr) :
    (links (rename (setAfter (setParent h x p) d l (.node x)) x new)).Sound ∧
      (links (rename (setAfter (setParent h x p) d l (.node x)) x new)).Kids d (l ++ x :: m) ∧
      ∀ e le, e ≠ d →
        ((links h).Kids e le ↔ (links (rename (setAfter (setParent h x p) d l (.node x)) x new)).Kids e le) := by
  rw [links_move hs hd hk]
  exact hL.append hk hm.2 (hx (x :: m) hm)

theorem sound_remove (hs : Shaped h) (hL : (links h).Sound) (hd : d < h.length)
    (hv : Seg (links h).next ((links h).child d) l (.node x)) (hx : h[x]? = some n) :
    (links (cut h d l x n.next)).Sound ∧ ∃ m, (links h).Kids d (l ++ x :: m) ∧
      (links (cut h d l x n.next)).Kids d (l ++ m) ∧
      ∀ e le, e ≠ d → ((links h).Kids e le ↔ (links (cut h d l x n.next)).Kids e le) := by
  obtain ⟨m, hm⟩ := hL.rest x
  have hk : (links h).Kids d (l ++ x :: m) := chain_append.2 ⟨_, hv, rfl, hm⟩
  rw [links_cut_of_get hs hd (hs.seg_filled hv (hs.links_child d).inside).1 hx]
  obtain ⟨h1, -, h3, h4⟩ := hL.unlink hk hm fun a ha e le he hae =>
    ⟨hL.disjoint he hk hae (List.mem_append_right _ ha), ha⟩
  exact ⟨h1, m, hk, h3, h4⟩

theorem sound_fresh (garbage : ℕ → Node) : (links (fresh garbage).heap).Sound := by
  have hc : ∀ a, (links (fresh garbage).heap).child a = .null := by
    intro a; cases a <;> simp [links, field, fresh]
  have hn : ∀ a, (links (fresh garbage).heap).next a = .null := by
    intro a; cases a <;> simp [links, field, fresh]
  refine ⟨fun d => ⟨[], hc d⟩, fun a => ⟨[], hn a⟩, fun {d d' l l' a} hk _ ha => ?_⟩
  have : Links.Kids (links (fresh garbage).heap) d [] := hc d
  rw [hk.unique this] at ha
  cases ha

/-- **Every command keeps the chains sound** that unlinks nodes from where they stand. -/
theorem sound_step (hs : Typed s) (hL : (links s.heap).Sound) (hok : MvOk s c) (h : Step s c out s') :
    (links s'.heap).Sound := by
  cases step_cases hs h with
  | keep => exact hL
  | enter => exact hL
  | insert e hc hn _ hk _ =>
    exact (sound_insert hs.heap hL (hs.cur _ e).2.lt hk (by rw [hc, Ptr.orNull_null]) hn rfl (by simp)).1
  | remove e hv hg _ => exact (sound_remove hs.heap hL (hs.cur _ e).2.lt hv hg).1
  | unlinked hr hu => exact (hu.sound hs.heap hL (hok _ _ _ rfl hr)).1
  | @move _ _ x h₁ d new l hr hu hd ht hk =>
    obtain ⟨h1, h2, -⟩ := hu.sound hs.heap hL (hok _ _ _ rfl hr)
    obtain ⟨m, hm⟩ := h1.rest x
    exact (sound_move (hu.shaped hs.heap) h1 (lt_of_field ht) hk h2 ⟨rfl, hm⟩ _).1
  | orphan hr hx => rw [links_append rfl rfl]; exact hL
  | @copy _ _ loc x xn d new l _ hr hx hd ht hk =>
    exact (sound_insert (n := copyNode s xn (new.getD xn.name) loc) hs.heap hL (lt_of_field ht) hk rfl rfl
      (by simp) (by simp)).1

theorem Run.sound {garbage : ℕ → Node} {cs : List Cmd} (h : Run MvOk (fresh garbage) cs s) :
    (links s.heap).Sound := by
  refine (h.inv (fun s => Typed s ∧ (links s.heap).Sound) ⟨typed_fresh garbage, sound_fresh garbage⟩ ?_).2
  intro s c out s' hs hok hst
  exact ⟨hs.1.step hst, sound_step hs.1 hs.2 hok hst⟩

/-! ### The loops end -/

@[simp] theorem strcpyName_ne_diverge {t : CStr} : strcpyName t ≠ .error .diverge := by
  unfold strcpyName; split <;> simp

@[simp] theorem sprintfChunks_ne_diverge {k : ℤ} : sprintfChunks k ≠ .error .diverge := by
  unfold sprintfChunks; split <;> simp

/-- A walk along sound chains visits no more nodes than there are. -/
theorem Shaped.walk (hs : Shaped h) (hL : (links h).Sound) (hp : Inside h p) :
    p = .unassigned ∨ ∃ l, Chain (links h).next p l ∧ (∀ b ∈ l, b < h.length) ∧ l.length ≤ h.length := by
  have key : ∀ l, Chain (links h).next p l →
      ∃ l, Chain (links h).next p l ∧ (∀ b ∈ l, b < h.length) ∧ l.length ≤ h.length := by
    intro l hl
    have hlt : ∀ b ∈ l, b < h.length := fun b hb => ((hs.seg_filled hl hp).1 b hb).lt
    exact ⟨l, hl, hlt, length_le_of_nodup hl.nodup hlt⟩
  cases p with
  | unassigned => exact Or.inl rfl
  | null => exact Or.inr (key [] rfl)
  | node a =>
    obtain ⟨l, hl⟩ := hL.walk (a := a)
    exact Or.inr (key l hl)

theorem find_ne_diverge (hs : Shaped h) (hL : (links h).Sound) (hp : Inside h p) {hit : Node → Bool} :
    find h hit (rounds h) p ≠ .error .diverge := by
  rcases hs.walk hL hp with rfl | ⟨l, hl, hlt, hlen⟩
  · simp [find, rounds, deref, bind, Except.bind]
  · obtain ⟨r, hr⟩ := exists_find hit hl hlt (Nat.lt_succ_of_le hlen)
    rw [rounds, hr]; simp

theorem attach_ne_diverge (hs : Shaped h) (hL : (links h).Sound) : attach h p x ≠ .error .diverge := by
  intro ha
  simp only [attach, except_bind_eq_error, deref_ne_diverge, false_or, deref_eq_ok, Prod.exists] at ha
  obtain ⟨c, n, ⟨-, hc⟩, ha⟩ := ha
  split at ha
  · cases ha
  · next hne =>
    simp only [except_bind_eq_error, reduceCtorEq, and_false, exists_false, or_false] at ha
    rcases hs.walk hL (hs.child_inside hc) with e | ⟨l, hl, hlt, hlen⟩
    · simp [e, findLast, rounds, deref, bind, Except.bind] at ha
    · rcases List.eq_nil_or_concat' l with rfl | ⟨l, a, rfl⟩
      · exact hne hl
      · rw [exists_findLast hl hlt (by simp [rounds] at hlen ⊢; omega)] at ha
        cases ha

theorem unlink_ne_diverge (hs : Shaped h) (hL : (links h).Sound) : unlink h x ≠ .error .diverge := by
  intro hu
  simp only [unlink, except_bind_eq_error, deref_ne_diverge, false_or, deref_eq_ok, Prod.exists] at hu
  obtain ⟨y, xn, -, par, pn, ⟨-, hp⟩, c, cn, ⟨e, -⟩, hu⟩ := hu
  split at hu
  · cases hu
  · rcases hs.walk hL (hs.child_inside hp) with e' | ⟨l, hl, hlt, hlen⟩
    · rw [e] at e'; cases e'
    · rw [e] at hl
      exact (unlinkLoop_loop h x xn).ne_diverge (.inl rfl) hl (Nat.lt_succ_of_le hlen) hu

/-- It is enough that the chain of the current directory ends. -/
theorem removeChild_ne_diverge (hs : Shaped h) {file : CStr} (hk : ∀ c, p = .node c → ∃ l, (links h).Kids c l) :
    removeChild h p file ≠ .error .diverge := by
  intro hu
  simp only [removeChild, except_bind_eq_error, deref_ne_diverge, false_or, deref_eq_ok, Prod.exists] at hu
  obtain ⟨c, cn, ⟨hp, hc⟩, hu⟩ := hu
  split at hu
  · cases hu
  · simp only [except_bind_eq_error, deref_ne_diverge, false_or, deref_eq_ok, Prod.exists] at hu
    obtain ⟨a, n, ⟨e, -⟩, hu⟩ := hu
    split at hu
    · cases hu
    · obtain ⟨l, hl⟩ := hk c hp
      have hlen := length_le_of_nodup hl.nodup fun b hb => (hs.kids_filled hl b hb).lt
      rw [Links.Kids, links_child_of_get hc, e, Ptr.orNull_node] at hl
      exact (removeLoop_loop h file).ne_diverge (.inl rfl) hl (Nat.lt_succ_of_le hlen) hu

theorem listLoop_not_stops (t : Mem) : ∀ {l : List ℕ} {fuel : ℕ} {p : Ptr ℕ},
    Chain (links t.heap).next p l → l.length < fuel → ¬ (listLoop t fuel p).Stops [] .diverge
  | [], fuel + 1, p, hl, _ => by
    rw [chain_nil.1 hl]
    simp [listLoop]
  | a :: l, fuel + 1, p, hl, hf => by
    obtain ⟨rfl, hl⟩ := hl
    simp only [listLoop, Proc.stops_attempt, deref_ne_diverge, deref_eq_ok, false_or, Prod.exists, Proc.stops_write,
      Ptr.node.injEq, not_exists, not_and]
    rintro b n ⟨rfl, hb⟩
    rw [links_next_of_get hb] at hl
    exact listLoop_not_stops t hl (by simpa using hf)

/-- On chains that end, a path loop does. -/
theorem PathLoop.ne_diverge {α : Type} {enter : Node → Prop} {done : Ptr ℕ → α} {stop : CStr → List CStr → ℕ → α}
    {W : List CStr → Ptr ℕ → Except Fault α} (hW : PathLoop h enter done stop W) (hs : Shaped h) (hL : (links h).Sound)
    {l : List CStr} : W l p ≠ .error .diverge := by
  intro hw
  have ho := hW.outcome l p
  rw [hw] at ho
  cases ho with
  | fails _ hb =>
    obtain ⟨q, -, hq | ⟨found, a, n, -, ha, hl⟩⟩ := hb
    · exact deref_ne_diverge hq
    · exact find_ne_diverge hs hL (hs.child_inside ha) hl

variable {ins : List CStr}

theorem makeDirectory_ends (hs : Typed s) (hL : (links s.heap).Sound) {dirname : CStr} :
    ¬ (makeDirectory s).Stops [dirname] .diverge := by
  intro h
  simp only [makeDirectory, Proc.stops_read, Proc.stops_attempt, strcpyName_ne_diverge, false_or, Proc.stops_ret,
    and_false, exists_false, or_false] at h
  obtain ⟨name, -, ha⟩ := h
  refine attach_ne_diverge (hs.heap.append rfl rfl hs.cur) ?_ ha
  rwa [links_append rfl rfl]

theorem tobigfs_ends (hs : Typed s) (hL : (links s.heap).Sound) {filename no_of_chunks loc : CStr} :
    ¬ (tobigfs s).Stops [filename, no_of_chunks, loc] .diverge := by
  intro h
  simp only [tobigfs, Proc.stops_read, Proc.stops_attempt, deref_ne_diverge, false_or, deref_eq_ok, Prod.exists] at h
  obtain ⟨d, dn, ⟨-, hd⟩, h | ⟨o, -, h⟩⟩ := h
  · exact find_ne_diverge hs.heap hL (hs.heap.child_inside hd) h
  · cases o with
    | some a => simp [reply] at h
    | none =>
      simp only [reply, Proc.stops_write, Proc.stops_attempt, Proc.stops_read, strcpyName_ne_diverge, false_or,
        Proc.stops_ret, and_false, exists_false, or_false] at h
      obtain ⟨name, -, ha⟩ := h
      refine attach_ne_diverge (hs.heap.append rfl rfl hs.cur) ?_ ha
      rwa [links_append rfl rfl]

theorem sendFile_ends (hs : Typed s) (hL : (links s.heap).Sound) {file : CStr} :
    ¬ (sendFile s).Stops [file] .diverge := by
  intro h
  simp only [sendFile, Proc.stops_read, Proc.stops_attempt, deref_ne_diverge, false_or, deref_eq_ok, Prod.exists] at h
  obtain ⟨d, dn, ⟨-, hd⟩, h | ⟨o, -, h⟩⟩ := h
  · exact find_ne_diverge hs.heap hL (hs.heap.child_inside hd) h
  · cases o <;> simp [reply, sendLocation] at h

theorem removefile_ends (hs : Typed s) (hL : (links s.heap).Sound) {file : CStr} :
    ¬ (removefile s).Stops [file] .diverge := by
  intro h
  simp only [removefile, Proc.stops_read, Proc.stops_attempt, removeChild_ne_diverge hs.heap fun c _ => hL.kids c, false_or] at h
  obtain ⟨o, -, h⟩ := h
  cases o <;> simp [reply, sendLocation] at h

/-- The walk of a `mv` or `cp` to its source is not caught in a loop. -/
theorem source_ends (hs : Typed s) (hL : (links s.heap).Sound) {source : CStr} {k : ℕ × Node → Op}
    (h : (Proc.attempt s (walkSource s.heap (fields slash source) s.cur) fun
      | none => reply (lit "1") (.ret s)
      | some temp_cur => .attempt s (deref s.heap temp_cur) k : Op).Stops ins .diverge) :
    ∃ x xn, Resolve s.heap anyNode s.cur (fields slash source) (.node x) ∧ s.heap[x]? = some xn ∧
      (k (x, xn)).Stops ins .diverge := by
  simp only [Proc.stops_attempt, (walkSource_loop _).ne_diverge hs.heap hL, false_or] at h
  obtain ⟨o, hw, h⟩ := h
  cases o with
  | none => simp [reply] at h
  | some temp_cur =>
    simp only [Proc.stops_attempt, deref_ne_diverge, false_or, deref_eq_ok, Prod.exists] at h
    obtain ⟨x, xn, ⟨rfl, hx⟩, h⟩ := h
    exact ⟨x, xn, walkSource_eq_some hw, hx, h⟩

/-- Nor is the walk to the destination, which goes on at a directory. -/
theorem destination_ends {h₁ : Heap} {s₁ : Mem} (h₁s : Shaped h₁) (h₁L : (links h₁).Sound) {cur : Ptr ℕ}
    (hcur : Inside h₁ cur) {destination : CStr} {k : Destination → Op}
    (h : (Proc.attempt s₁ (walkDestination h₁ (fields slash destination) cur) fun dst =>
      .attempt s₁ (deref h₁ dst.temp_cur2) fun (_, n) =>
      if n.type = .file ∨ dst.flag then reply (lit "1") (.ret s₁) else k dst : Op).Stops ins .diverge) :
    ∃ dst d, dst.temp_cur2 = .node d ∧ DirPtr h₁ (.node d) ∧ (k dst).Stops ins .diverge := by
  simp only [Proc.stops_attempt, (walkDestination_loop _).ne_diverge h₁s h₁L, deref_ne_diverge, false_or, deref_eq_ok,
    Prod.exists] at h
  obtain ⟨dst, hdst, d, dn, ⟨ed, hd⟩, h⟩ := h
  split at h
  · simp [reply] at h
  · next hne =>
    simp only [not_or, Bool.not_eq_true] at hne
    have hd' := h₁s.dest_filled (walkDestination_eq_ok hdst hne.2 ed) hcur
    exact ⟨dst, d, ed, dirPtr_node.2 ⟨type_of_ne_file hd hne.1, hd'⟩, h⟩

theorem movefile_ends (hs : Typed s) (hL : (links s.heap).Sound) {source destination : CStr}
    (hok : MvOk s (.mv source destination)) : ¬ (movefile s).Stops [source, destination] .diverge := by
  intro h
  rw [movefile, Proc.stops_read, Proc.stops_read] at h
  obtain ⟨x, xn, hr, -, h⟩ := source_ends hs hL h
  simp only [Proc.stops_attempt (x := unlink s.heap x), unlink_ne_diverge hs.heap hL, false_or] at h
  obtain ⟨h₁, hu, h⟩ := h
  have hu := unlinked_of_unlink hu
  have h₁s := hu.shaped hs.heap
  have h₁L := (hu.sound hs.heap hL (hok _ _ _ rfl hr)).1
  obtain ⟨dst, d, ed, hd, h⟩ := destination_ends h₁s h₁L (hs.cur.mono (hu.extends hs.heap)).inside h
  rw [ed] at h
  rcases Proc.stops_attempt.1 h with ha | ⟨h₃, -, h⟩
  · refine attach_ne_diverge (h₁s.setParent hd) ?_ ha
    rwa [links_setParent]
  · cases hf : dst.found2 <;> simp [hf, reply] at h

theorem copyfile_ends (hs : Typed s) (hL : (links s.heap).Sound) {source destination loc : CStr} :
    ¬ (copyfile s).Stops [source, destination, loc] .diverge := by
  intro h
  rw [copyfile, Proc.stops_read, Proc.stops_read] at h
  obtain ⟨x, xn, -, -, h⟩ := source_ends hs hL h
  have h₁s : Shaped (s.heap ++ [newCopy s xn]) := hs.heap.append rfl rfl (fun a e => by cases e)
  have h₁L : (links (s.heap ++ [newCopy s xn])).Sound := by rwa [links_append rfl rfl]
  obtain ⟨dst, d, ed, hd, h⟩ :=
    destination_ends h₁s h₁L (hs.cur.mono (extends_append s.heap (newCopy s xn))).inside h
  rw [ed] at h
  rcases Proc.stops_attempt.1 h with ha | ⟨h₃, -, h⟩
  · refine attach_ne_diverge (h₁s.setParent hd) ?_ ha
    rwa [links_setParent]
  · rcases Proc.stops_attempt.1 h with hn | ⟨name, -, h⟩
    · cases hf : dst.found2 <;> simp [hf] at hn
    · simp [reply, sendLocation] at h

/-- On sound chains no command is caught in a loop. -/
theorem exec_ends (hs : Typed s) (hL : (links s.heap).Sound) (hok : MvOk s c) :
    ¬ (Proc.read () (dispatch s) : Op).Stops c.strings .diverge := by
  cases c with
  | ls =>
    intro h
    replace h : (listDirectory s).Stops [] .diverge := h
    simp only [listDirectory, Proc.stops_attempt, deref_ne_diverge, false_or, deref_eq_ok, Prod.exists] at h
    obtain ⟨d, dn, ⟨-, hd⟩, h⟩ := h
    rcases hs.heap.walk hL (hs.heap.child_inside hd) with e | ⟨l, hl, hlt, hlen⟩
    · simp [e, listLoop, rounds, deref] at h
    · exact listLoop_not_stops s hl (Nat.lt_succ_of_le hlen) h
  | mkdir dirname => exact makeDirectory_ends hs hL
  | cd dirname =>
    intro h
    replace h : (changeDirectory s).Stops [dirname] .diverge := h
    simp only [changeDirectory, Proc.stops_read, Proc.stops_attempt, (cdWalk_loop _).ne_diverge hs.heap hL, false_or] at h
    obtain ⟨o, -, h⟩ := h
    cases o <;> simp [reply] at h
  | tobigfs filename no_of_chunks loc => exact tobigfs_ends hs hL
  | cat file => exact sendFile_ends hs hL
  | frombigfs file => exact sendFile_ends hs hL
  | rm file => exact removefile_ends hs hL
  | mv source destination => exact movefile_ends hs hL hok
  | cp source destination loc => exact copyfile_ends hs hL

theorem mvOk_of_walk {source destination : CStr}
    (hw : walkSource s.heap (fields slash source) s.cur = .ok (some (.node x)))
    (hx : OnOwnChain s.heap x ∨ Loose s.heap x) : MvOk s (.mv source destination) := by
  intro source' destination' y e hr
  cases e
  have := hr.unique (walkSource_eq_some hw)
  cases this
  exact hx

end

/-- **Sibling chains.**  In a run whose commands have room and whose `mv` commands unlink their sources from where they
stand, every child chain is finite, no node occurs twice on a chain or on the chains of two directories, and no such
command is caught in a loop, or stopped by an overflow. -/
theorem chains_sound {garbage : ℕ → Node} {cs : List Cmd} {s : Mem}
    (h : Run (fun s c => Room s c ∧ MvOk s c) (fresh garbage) cs s) :
    (∀ d, ∃ l, (links s.heap).Kids d l ∧ l.Nodup) ∧
      (∀ d d' l l' a, (links s.heap).Kids d l → (links s.heap).Kids d' l' → a ∈ l → a ∈ l' → d = d') ∧
      ∀ c, Room s c → MvOk s c → (exec s c).2.error ≠ some .diverge ∧ (exec s c).2.error ≠ some .overflow := by
  have hL := (h.mono fun _ _ => And.right).sound
  refine ⟨fun d => ?_, fun d d' l l' a hk hk' => hL.disjoint hk hk', fun c hc hok => ⟨fun he => ?_, ?_⟩⟩
  · obtain ⟨l, hl⟩ := hL.kids d
    exact ⟨l, hl, Chain.nodup hl⟩
  · exact exec_ends h.typed hL hok (Proc.error_feed.1 he)
  · exact exec_fits h.typed hc

theorem chains_sound_moved : ∃ s ∈ serve (fresh zeroed) [.mkdir (lit "a"), .mkdir (lit "d")],
    ∃ s' ∈ serve s [.mv (lit "a") (lit "d")], ∃ l, (links s'.heap).Kids home l ∧ l.Nodup := by
  obtain ⟨s, hs, hk, hp, hw, s', hs', -⟩ : ∃ s ∈ serve (fresh zeroed) [.mkdir (lit "a"), .mkdir (lit "d")],
      (links s.heap).Kids home [1, 2] ∧ field Node.parent s.heap 1 = some (.node home) ∧
        walkSource s.heap (fields slash (lit "a")) s.cur = .ok (some (.node 1)) ∧
        ∃ s' ∈ serve s [.mv (lit "a") (lit "d")], True := by decide
  have hr : Run (fun s c => Room s c ∧ MvOk s c) (fresh zeroed) [.mkdir (lit "a"), .mkdir (lit "d")] s := 
    Run.nil.serve (fun c hc s => ⟨room_mkdirs [lit "a", lit "d"] (by decide) c hc s, by revert c; simp [MvOk]⟩) hs
  have hok : MvOk s (.mv (lit "a") (lit "d")) := mvOk_of_walk hw (Or.inl ⟨home, [1, 2], hp, hk, by simp⟩)
  exact ⟨s, hs, s', hs', (chains_sound (hr.snoc_serve ⟨room_mv (by decide), hok⟩ hs')).1 home⟩

/-- After `cp a d` the field `parent` of `a` points to `d`, where `mv a x` then unlinks the copy. -/
def brokenChain : List Cmd :=
  [.mkdir (lit "a"), .mkdir (lit "d"), .cp (lit "a") (lit "d") (lit "x"), .mv (lit "a") (lit "x")]

theorem chains_broken : ∃ s, Reachable s ∧ (¬ ∃ l, (links s.heap).Kids home l) ∧
    (exec s .ls).2.error = some .diverge := by
  obtain ⟨s, hs, h1, h2, h3⟩ : ∃ s ∈ serve (fresh zeroed) brokenChain, (links s.heap).child home = .node 1 ∧
      (links s.heap).next 1 = .node 1 ∧ (exec s .ls).2.error = some .diverge := by decide
  refine ⟨s, reachable_serve hs, ?_, h3⟩
  -- the node `a` is its own successor
  rintro ⟨l, hl⟩
  rw [Links.Kids, h1] at hl
  cases l with
  | nil => cases hl
  | cons a l =>
    obtain ⟨e, hl⟩ := hl
    cases e
    rw [h2] at hl
    have := congrArg List.length (Chain.unique (show Chain _ (.node 1) (1 :: l) from ⟨rfl, h2 ▸ hl⟩) hl)
    simp at this

end NetProg.NameServer
