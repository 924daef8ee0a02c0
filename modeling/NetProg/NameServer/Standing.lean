import NetProg.NameServer.Parents
import NetProg.NameServer.Removal

/-!
# Nodes that stand on a chain

`On h a`: the node `a` is a child of some node.  No command puts a node on a chain that was on none, but for the new one
(`on_step`), and none changes what a node holds for the client: its type, its location and the number of its chunks
(`field_step`).  What a new node holds is said by `made_mkdir`, `made_tobigfs` and `cp_cases`.
-/

namespace NetProg.NameServer

open NetProg.Lib

/-- The node stands on a child chain. -/
def On (h : Heap) (a : ℕ) : Prop := ∃ d l, (links h).Kids d l ∧ a ∈ l

/-- If the source of a `mv` is found, it stands on the chain of its parent. -/
def MvStanding (s : Mem) (c : Cmd) : Prop :=
  ∀ source destination x, c = .mv source destination →
    Resolve s.heap anyNode s.cur (fields slash source) (.node x) → OnOwnChain s.heap x

section

variable {s s' : Mem} {h h' : Heap} {a b d x : ℕ} {p : Ptr ℕ} {l m : List ℕ} {n : Node} {c : Cmd} {out : List Byte}

theorem MvStanding.alone (hok : MvStanding s c) : MvAlone s c := fun source destination x e hr =>
  .inl (hok source destination x e hr)

theorem OnOwnChain.on (hx : OnOwnChain h x) : On h x := by
  obtain ⟨par, l, -, hk, hxl⟩ := hx
  exact ⟨par, l, hk, hxl⟩

/-- A node is filled in that stands on a chain. -/
theorem On.filled (hs : Shaped h) (ha : On h a) : Filled h a := by
  obtain ⟨d, l, hk, hal⟩ := ha
  exact hs.kids_filled hk a hal

/-- Chains that lose nodes. -/
theorem On.of_sublist (hkids : ∀ e le', (links h').Kids e le' → ∃ le, (links h).Kids e le ∧ List.Sublist le' le)
    (ha : On h' a) : On h a := by
  obtain ⟨e, le', hk', ha⟩ := ha
  obtain ⟨le, hk, hsub⟩ := hkids e le' hk'
  exact ⟨e, le, hk, hsub.subset ha⟩

/-- A chain that gets one more node. -/
theorem On.of_concat (hk : (links h).Kids d l) (hk' : (links h').Kids d (l ++ [x]))
    (hother : ∀ e le, e ≠ d → ((links h).Kids e le ↔ (links h').Kids e le)) (ha : On h' a) : On h a ∨ a = x := by
  obtain ⟨e, le, he, ha⟩ := ha
  by_cases hne : e = d
  · subst hne
    rw [he.unique hk'] at ha
    rcases List.mem_append.1 ha with ha | ha
    · exact .inl ⟨e, l, hk, ha⟩
    · exact .inr (List.mem_singleton.1 ha)
  · exact .inl ⟨e, le, (hother e le hne).2 he, ha⟩

/-- **No node gets on a chain** but the new one. -/
theorem on_step (hs : Typed s) (hL : (links s.heap).Sound) (hmv : MvStanding s c) (h : Step s c out s')
    (ha : On s'.heap a) : On s.heap a ∨ a = s.heap.length := by
  cases step_cases hs h with
  | keep => exact .inl ha
  | enter => exact .inl ha
  | @insert _ _ n d l e hc hn hp hk _ =>
    obtain ⟨-, hk', hother⟩ := sound_insert (n := n) hs.heap hL (hs.cur _ e).2.lt hk (by rw [hc, Ptr.orNull_null]) hn rfl
      (by simp)
    exact ha.of_concat hk hk' hother
  | @remove _ _ d l v vn e hv hg _ => exact .inl (ha.of_sublist (kids_cut_sublist hs.heap hL (hs.cur _ e).2.lt hv hg))
  | unlinked hr hu => exact .inl (ha.of_sublist (hu.kids_sublist hs.heap hL (.inl (hmv _ _ _ rfl hr))))
  | @move _ _ x h₁ d new l hr hu hd ht hk =>
    have hx := hmv _ _ _ rfl hr
    have h0 := hu.next_null hs.heap hL (.inl hx)
    obtain ⟨h1, h2, -⟩ := hu.sound hs.heap hL (.inl hx)
    have hm : Chain (links h₁).next (.node x) [x] := ⟨rfl, h0⟩
    obtain ⟨-, hk', hother⟩ := sound_move (p := .node d) (hu.shaped hs.heap) h1 (lt_of_field ht) hk h2 hm new
    rcases ha.of_concat hk hk' hother with ha | rfl
    · exact .inl (ha.of_sublist (hu.kids_sublist hs.heap hL (.inl hx)))
    · exact .inl hx.on
  | orphan hr hx =>
    obtain ⟨e, le, he, ha⟩ := ha
    rw [links_append rfl rfl] at he
    exact .inl ⟨e, le, he, ha⟩
  | @copy _ _ loc x xn d new l _ hr hx hd ht hk =>
    have hlinks : links (setParent (s.heap ++ [copyNode s xn (new.getD xn.name) loc]) x (.node d)) =
        links (s.heap ++ [copyNode s xn (new.getD xn.name) loc]) := by simp
    obtain ⟨-, hk', hother⟩ := sound_insert hs.heap hL (lt_of_field ht) hk rfl rfl hlinks (by simp)
    exact ha.of_concat hk hk' hother

/-- A node that is removed stands on no chain. -/
theorem not_on_cut (hs : Shaped h) (hL : (links h).Sound) (hd : d < h.length)
    (hv : Seg (links h).next ((links h).child d) l (.node x)) (hx : h[x]? = some n) : ¬ On (cut h d l x n.next) x := by
  obtain ⟨-, m, hk, hk', hother⟩ := sound_remove hs hL hd hv hx
  rintro ⟨e, le, he, ha⟩
  by_cases hne : e = d
  · subst hne
    rw [he.unique hk'] at ha
    exact (List.nodup_cons.1 (List.nodup_middle.1 hk.nodup)).1 ha
  · exact hne (hL.disjoint ((hother e le hne).2 he) hk ha (by simp))

/-- **What a node holds for the client** is not changed by any command. -/
theorem field_step {β : Type} {f : Node → β} (hc : ∀ n p, f { n with child := p } = f n)
    (hn : ∀ n p, f { n with next := p } = f n) (hp : ∀ n p, f { n with parent := p } = f n)
    (ht : ∀ n t, f { n with name := t } = f n) (hs : Typed s) (h : Step s c out s') (ha : a < s.heap.length) :
    field f s'.heap a = field f s.heap a := by
  cases step_cases hs h with
  | keep => rfl
  | enter => rfl
  | insert => rw [field_setAfter hc hn, field_append_of_lt _ ha]
  | remove => exact field_cut hc hn
  | unlinked hr hu => exact hu.field_eq hc hn
  | @move _ _ x h₁ d new l hr hu hd htype hk =>
    have hbase : field f (setAfter (setParent h₁ x (.node d)) d l (.node x)) a = field f s.heap a := by
      rw [field_setAfter hc hn, field_setParent hp, hu.field_eq hc hn]
    cases new with
    | none => exact hbase
    | some new => exact (field_setName ht).trans hbase
  | orphan => rw [field_append_of_lt _ ha]
  | copy => rw [field_setAfter hc hn, field_setParent hp, field_append_of_lt _ ha]

/-- A `mv` makes no node. -/
theorem length_mv {source destination : CStr} (hs : Typed s) (h : Step s (.mv source destination) out s') :
    s'.heap.length = s.heap.length := by
  have hun : ∀ {x h₁}, Unlinked s.heap x h₁ → h₁.length = s.heap.length := by
    intro x h₁ hu
    cases hu with
    | kept => rfl
    | cut => simp
  cases step_cases hs h with
  | keep => rfl
  | insert _ _ _ _ _ hc => rcases hc with hc | ⟨⟨_, _, _, hc⟩, -⟩ <;> cases hc
  | unlinked hr hu => exact hun hu
  | @move _ _ x h₁ d new l hr hu hd ht hk =>
    have hbase : (setAfter (setParent h₁ x (.node d)) d l (.node x)).length = s.heap.length := by simp [hun hu]
    cases new with
    | none => exact hbase
    | some new => simpa [rename] using hun hu

/-- A `cp` that is refused puts nothing on a chain. -/
theorem cp_refused {source destination loc : CStr} (hs : Typed s)
    (h : Step s (.cp source destination loc) (lit "1").z s') :
    s'.heap = s.heap ∨ ¬ On s'.heap s.heap.length := by
  have hz : (lit "0").z = [48, 0] ∧ (lit "1").z = [49, 0] := by decide
  rcases cp_cases hs h with ⟨-, rfl | ⟨x, xn, hr, hx, rfl⟩⟩ | ⟨x, d, xn, new, l, hc⟩
  · exact .inl rfl
  · refine .inr ?_
    rintro ⟨d, l, hk, hmem⟩
    rw [links_append rfl rfl] at hk
    exact off_length hs.heap d l hk hmem
  · have ho := hc.out
    simp [hz] at ho

/-! ### New nodes -/

/-- A new directory. -/
theorem made_mkdir {dirname : CStr} (hs : Typed s) (h : Step s (.mkdir dirname) out s') :
    field Node.type s'.heap s.heap.length = some .directory := by
  replace h : (makeDirectory s).Ends [dirname] out s' := h
  simp only [makeDirectory, Proc.ends_read, Proc.ends_attempt, strcpyName_eq_ok, Proc.ends_ret] at h
  obtain ⟨name, ⟨-, rfl⟩, h₁, ha, -, rfl⟩ := h
  obtain ⟨d, -, e, -⟩ := attach_eq_ok ha
  rw [e] at ha
  obtain ⟨l, hk, rfl⟩ := attach_append rfl (hs.cur d e).2.lt rfl ha
  rw [field_setAfter (fun _ _ => rfl) fun _ _ => rfl, field_append_self]
  rfl

/-- A new file, where the name is free: what the client has sent about it. -/
theorem made_tobigfs {filename parts loc : CStr} (hs : Typed s) (h : Step s (.tobigfs filename parts loc) (lit "0").z s') :
    s'.heap.length = s.heap.length + 1 ∧ field Node.type s'.heap s.heap.length = some .file ∧
      field Node.no_of_chunks s'.heap s.heap.length = some (atoi parts) ∧
      field Node.loc_name s'.heap s.heap.length = some loc := by
  replace h : (tobigfs s).Ends [filename, parts, loc] (lit "0").z s' := h
  simp only [tobigfs, Proc.ends_read, Proc.ends_attempt, deref_eq_ok, Prod.exists] at h
  obtain ⟨d, dn, ⟨e, hd⟩, o, hf, h⟩ := h
  cases o with
  | some a =>
    have hz : (lit "0").z = [48, 0] ∧ (lit "1").z = [49, 0] := by decide
    obtain ⟨o, ho, -⟩ := Proc.ends_write.1 h
    simp [hz] at ho
  | none =>
    simp only [reply, Proc.ends_write, Proc.ends_read, Proc.ends_attempt, strcpyName_eq_ok, Proc.ends_ret] at h
    obtain ⟨-, -, name, ⟨-, rfl⟩, h₁, ha, -, rfl⟩ := h
    rw [e] at ha
    obtain ⟨l, hk, rfl⟩ := attach_append rfl (lt_of_get hd) rfl ha
    have hl := hs.heap.kids_filled hk
    have hne : s.heap.length ≠ d := (lt_of_get hd).ne'
    have hnl : s.heap.length ∉ l := fun hmem => (hl _ hmem).lt.ne rfl
    rw [setLocName, setAfter_modify hne hnl, modify_append]
    refine ⟨by simp, ?_, ?_, ?_⟩
    · rw [field_setAfter (fun _ _ => rfl) fun _ _ => rfl, field_append_self]
      rfl
    · rw [field_setAfter (fun _ _ => rfl) fun _ _ => rfl, field_append_self]
      rfl
    · rw [field_setAfter (fun _ _ => rfl) fun _ _ => rfl, field_append_self]

/-! ### Files that are shown and removed -/

/-- What the client is sent of a node. -/
theorem ends_sendLocation {vn : Node} {r : Mem} (h : (sendLocation s vn (.ret r)).Ends [] out s') :
    out = vn.loc_name.z ++ (decimal vn.no_of_chunks).z ∧ s' = r ∧ (decimal vn.no_of_chunks).bytes.length < 10 := by
  simp only [sendLocation, reply, Proc.ends_write, Proc.ends_attempt, Proc.ends_ret] at h
  obtain ⟨o, rfl, chunks, hc, o', rfl, rfl, rfl⟩ := h
  unfold sprintfChunks at hc
  split at hc
  · next hlt =>
    cases hc
    exact ⟨by rw [List.append_nil], rfl, hlt⟩
  · cases hc

/-- The answer of `cat` and `frombigfs` is about the first file of the name. -/
theorem shown {file : CStr} (hL : (links s.heap).Sound) (h : (sendFile s).Ends [file] out s') :
    s' = s ∧ ∃ d l v vn, s.cur = .node d ∧ (links s.heap).Kids d l ∧ l.find? (isFile s.heap file) = some v ∧
      s.heap[v]? = some vn ∧ (decimal vn.no_of_chunks).bytes.length < 10 ∧ out = sent vn := by
  simp only [sendFile, Proc.ends_read, Proc.ends_attempt, deref_eq_ok, Prod.exists] at h
  obtain ⟨d, dn, ⟨hcur, hd⟩, o, hf, h⟩ := h
  cases o with
  | none => simp [reply] at h
  | some v =>
    obtain ⟨pre, vn, hseg, hv, hhit, hno⟩ := find_eq_some hf
    obtain ⟨o, rfl, h₁⟩ := Proc.ends_write.1 h
    obtain ⟨⟨v', vn'⟩, hv', h₂⟩ := Proc.ends_attempt.1 h₁
    obtain ⟨hvv, hg⟩ := deref_eq_ok.1 hv'
    cases hvv
    rw [hv] at hg
    cases hg
    obtain ⟨rfl, rfl, hfit⟩ := ends_sendLocation h₂
    obtain ⟨l, hk⟩ := hL.kids d
    have hne : dn.child.orNull = dn.child := by
      refine Ptr.orNull_of_ne fun e => ?_
      rw [e] at hseg
      cases pre with
      | nil => cases hseg
      | cons y pre => cases hseg.1
    have hk' := hk
    rw [Links.Kids, links_child_of_get hd, hne] at hk'
    obtain ⟨post, rfl⟩ := Chain.exists_of_seg hk' hseg
    refine ⟨rfl, d, _, _, _, hcur, hk, ?_, hv, hfit, rfl⟩
    refine List.find?_eq_some_iff_append.2 ⟨(isFile_of_get hv).2 (by simpa using hhit), pre, post, rfl, fun b hb => ?_⟩
    obtain ⟨m, hm, hmiss⟩ := hno b hb
    rw [Bool.not_eq_true', Bool.eq_false_iff, Ne, isFile_of_get hm]
    simpa using hmiss

/-- The answer of `rm` is about the child that is cut out. -/
theorem taken_rm {file : CStr} (h : Step s (.rm file) out s') : ∃ d l v vn, s.cur = .node d ∧
    removeChild s.heap s.cur file = .ok (some (v, cut s.heap d l v vn.next)) ∧
    Seg (links s.heap).next ((links s.heap).child d) l (.node v) ∧ s.heap[v]? = some vn ∧ out = sent vn ∧
    s' = { s with heap := cut s.heap d l v vn.next } := by
  replace h : (removefile s).Ends [file] out s' := h
  rw [removefile, Proc.ends_read] at h
  obtain ⟨o, hr, h⟩ := Proc.ends_attempt.1 h
  obtain ⟨d, l, e, -, -, -, hcase⟩ := removeChild_eq_ok hr
  rcases hcase with ⟨-, rfl⟩ | ⟨v, vn, hv, hg, hname, -, rfl⟩
  · simp [reply] at h
  · obtain ⟨o, rfl, h₁⟩ := Proc.ends_write.1 h
    obtain ⟨⟨v', vn'⟩, hv', h₂⟩ := Proc.ends_attempt.1 h₁
    obtain ⟨hvv, hg'⟩ := deref_eq_ok.1 hv'
    cases hvv
    obtain ⟨rfl, rfl, -⟩ := ends_sendLocation h₂
    obtain ⟨n', hn', hloc, hchunks⟩ := get_cut (d := d) (l := l) hg (p := vn.next)
    rw [hg'] at hn'
    cases hn'
    exact ⟨d, l, _, _, e, hr, hv, hg, by rw [sent, hloc, hchunks], rfl⟩

/-! ### What a path leads to -/

/-- A file that a path leads to stands on a chain. -/
theorem Resolve.on (hs : Shaped h) (hL : (links h).Sound) {comps : List CStr} {q : Ptr ℕ}
    (hr : Resolve h anyNode p comps q) (hp : ∀ b, p = .node b → field Node.type h b = some .directory ∨ On h b)
    (hq : q = .node x) (hx : field Node.type h x = some .file) : On h x := by
  induction hr with
  | nil =>
    rcases hp x hq with hdir | hon
    · rw [hx] at hdir
      cases hdir
    · exact hon
  | up ha _ ih => exact ih (fun b hb => .inl (hs.parent (field_of_get ha) b hb).1) hq
  | stay _ ih => exact ih hp hq
  | @down a n found b m l q _ _ ha hf hb _ _ ih =>
    refine ih (fun b' hb' => .inr ?_) hq
    cases hb'
    obtain ⟨lk, hk⟩ := hL.kids a
    obtain ⟨pre, hpre, -⟩ := hf
    have hne : n.child.orNull = n.child := by
      refine Ptr.orNull_of_ne fun e => ?_
      rw [e] at hpre
      cases pre with
      | nil => cases hpre
      | cons y pre => cases hpre.1
    rw [Links.Kids, links_child_of_get ha, hne] at hk
    obtain ⟨post, rfl⟩ := Chain.exists_of_seg hk hpre
    refine ⟨a, pre ++ b :: post, ?_, by simp⟩
    rwa [Links.Kids, links_child_of_get ha, hne]

end

end NetProg.NameServer
