import NetProg.NameServer.Shape

/-!
# What a command does to the memory

`Change s c out s'` lists the ways a command can end: which paths it has resolved, and the memory it leaves in terms of
`setAfter` and `cut`.  `step_cases` says that there are no others; every invariant of the server is proved by cases on
it.
-/

namespace NetProg.NameServer

open NetProg.Lib

/-- The heap is shaped and the current directory, where it is a node, is a directory. -/
structure Typed (s : Mem) : Prop where
  heap : Shaped s.heap
  cur : DirPtr s.heap s.cur

/-- None of the nodes bears the name. -/
def NotNamed (h : Heap) (t : CStr) (l : List ℕ) : Prop := ∀ b ∈ l, ∃ u, field Node.name h b = some u ∧ u ≠ t

/-- What `unlink` makes of a heap: it stops at the first node `v` with the name of `x`, if there is one, and cuts the
chain there. -/
inductive Unlinked (h : Heap) (x : ℕ) : Heap → Prop where
  | kept {xn par l} : h[x]? = some xn → xn.parent = .node par → (links h).Kids par l → NotNamed h xn.name l →
      Unlinked h x h
  | cut {xn par l v} : h[x]? = some xn → xn.parent = .node par →
      Seg (links h).next ((links h).child par) l (.node v) → NotNamed h xn.name l →
      field Node.name h v = some xn.name → Unlinked h x (cut h par l x xn.next)

/-- The last assignment of `movefile`. -/
def rename (h : Heap) (x : ℕ) : Option CStr → Heap
  | none => h
  | some new => setName h x new

/-- The node of a copy, all its fields but `parent` assigned. -/
def copyNode (s : Mem) (xn : Node) (name loc : CStr) : Node :=
  { newCopy s xn with name := name, child := .null, loc_name := loc }

/-- The ways a command ends. -/
inductive Change (s : Mem) : Cmd → List Byte → Mem → Prop where
  | keep {c out} : (∀ source destination, c = .mv source destination → out = (lit "1").z) → Change s c out s
  | enter {dirname q} : Resolve s.heap isDirectory s.cur (fields slash dirname) q →
      Change s (.cd dirname) (lit "0").z { s with cur := q }
  | insert {c out n d l} : s.cur = .node d → n.child = .null → n.next = .null → n.parent = .node d →
      (links s.heap).Kids d l →
      (c = .mkdir n.name ∨ (∃ filename k loc, c = .tobigfs filename k loc) ∧ NotNamed s.heap n.name l) →
      Change s c out { s with heap := setAfter (s.heap ++ [n]) d l (.node s.heap.length) }
  | remove {file out d l v vn} : s.cur = .node d → Seg (links s.heap).next ((links s.heap).child d) l (.node v) →
      s.heap[v]? = some vn → vn.name = file →
      Change s (.rm file) out { s with heap := cut s.heap d l v vn.next }
  | unlinked {source destination x h₁} : Resolve s.heap anyNode s.cur (fields slash source) (.node x) →
      Unlinked s.heap x h₁ → Change s (.mv source destination) (lit "1").z { s with heap := h₁ }
  | move {source destination x h₁ d new l} : Resolve s.heap anyNode s.cur (fields slash source) (.node x) →
      Unlinked s.heap x h₁ → Dest h₁ s.cur (fields slash destination) d new →
      field Node.type h₁ d = some .directory → (links h₁).Kids d l →
      Change s (.mv source destination) (lit "0").z
        { s with heap := rename (setAfter (setParent h₁ x (.node d)) d l (.node x)) x new }
  | orphan {source destination loc x xn} : Resolve s.heap anyNode s.cur (fields slash source) (.node x) →
      s.heap[x]? = some xn →
      Change s (.cp source destination loc) (lit "1").z { s with heap := s.heap ++ [newCopy s xn] }
  | copy {source destination loc x xn d new l out} :
      Resolve s.heap anyNode s.cur (fields slash source) (.node x) → s.heap[x]? = some xn →
      Dest s.heap s.cur (fields slash destination) d new → field Node.type s.heap d = some .directory →
      (links s.heap).Kids d l →
      Change s (.cp source destination loc) ((lit "0").z ++ out)
        { s with
          heap := setAfter (setParent (s.heap ++ [copyNode s xn (new.getD xn.name) loc]) x (.node d)) d l
            (.node s.heap.length) }

section

variable {s s' : Mem} {h h' : Heap} {a b d x k : ℕ} {p : Ptr ℕ} {l : List ℕ} {n : Node} {out : List Byte}

theorem NotNamed.notMem {t : CStr} (hn : NotNamed h t l) (ha : field Node.name h a = some t) : a ∉ l := by
  intro hal
  obtain ⟨u, hu, hne⟩ := hn a hal
  rw [ha] at hu
  exact hne (Option.some.inj hu).symm

theorem unlinked_of_unlink (hu : unlink h x = .ok h') : Unlinked h x h' := by
  obtain ⟨xn, par, pn, l, hx, hpar, hp, -, hl, hr⟩ := unlink_eq_ok hu
  have hn : NotNamed h xn.name l := fun b hb => by
    obtain ⟨m, hm, hne⟩ := hl b hb
    exact ⟨m.name, field_of_get hm, hne⟩
  rcases hr with ⟨hk, rfl⟩ | ⟨v, vn, hv, hg, hname, rfl⟩
  · exact .kept hx hpar hk hn
  · refine .cut hx hpar (v := v) ?_ hn (by rw [field_of_get hg, hname])
    have : pn.child.orNull = pn.child := by
      refine Ptr.orNull_of_ne fun e => ?_
      rw [e] at hv
      cases l with
      | nil => cases hv
      | cons b l => cases hv.1
    rwa [links_child_of_get hp, this]

theorem Unlinked.unique {h'' : Heap} (h1 : Unlinked h x h') (h2 : Unlinked h x h'') : h' = h'' := by
  cases h1 with
  | @kept xn par l hx hpar hk hn =>
    cases h2 with
    | kept => rfl
    | @cut xn' par' l' v hx' hpar' hv hn' hname =>
      rw [hx] at hx'
      cases hx'
      rw [hpar] at hpar'
      cases hpar'
      exact absurd ⟨l', hv, hname, hn'⟩ (Missing.not_first ⟨l, hk, hn⟩)
  | @cut xn par l v hx hpar hv hn hname =>
    cases h2 with
    | @kept xn' par' l' hx' hpar' hk hn' =>
      rw [hx] at hx'
      cases hx'
      rw [hpar] at hpar'
      cases hpar'
      exact absurd ⟨l, hv, hname, hn⟩ (Missing.not_first ⟨l', hk, hn'⟩)
    | @cut xn' par' l' v' hx' hpar' hv' hn' hname' =>
      rw [hx] at hx'
      cases hx'
      rw [hpar] at hpar'
      cases hpar'
      have hvv : v = v' := First.unique ⟨l, hv, hname, hn⟩ ⟨l', hv', hname', hn'⟩
      subst hvv
      rw [hv.unique hv' (hn.notMem hname) (hn'.notMem hname)]

/-! ### Nodes under construction -/

theorem modify_comm {g f : Node → Node} (hab : a ≠ b) : (h.modify a g).modify b f = (h.modify b f).modify a g := by
  apply List.ext_getElem?
  intro i
  simp only [List.getElem?_modify, Option.map_eq_map, Option.map_map]
  congr 1
  funext n
  by_cases h1 : a = i <;> by_cases h2 : b = i <;> simp_all

theorem modify_append (h : Heap) (n : Node) (g : Node → Node) : (h ++ [n]).modify h.length g = h ++ [g n] := by
  apply List.ext_getElem?
  intro i
  rcases Nat.lt_trichotomy i h.length with hlt | rfl | hlt
  · simp [List.getElem?_append_left hlt, Nat.ne_of_gt hlt]
  · simp
  · have h1 : (h ++ [n])[i]? = none := by simp; omega
    have h2 : (h ++ [g n])[i]? = none := by simp; omega
    simp [List.getElem?_modify, h1, h2]

/-- Filling in a node commutes with the assignment that links it in. -/
theorem setAfter_modify {g : Node → Node} (hd : k ≠ d) (hl : k ∉ l) :
    (setAfter h d l p).modify k g = setAfter (h.modify k g) d l p := by
  rcases List.eq_nil_or_concat' l with rfl | ⟨l, a, rfl⟩
  · exact modify_comm (Ne.symm hd)
  · rw [setAfter_concat, setAfter_concat]
    exact modify_comm fun e => hl (by simp [e])

/-- The chain a new node is linked in behind. -/
theorem attach_append (hn : n.next = .null) (hd : d < h.length) {h₂ h₃ : Heap}
    (he : links h₂ = links (h ++ [n])) (ha : attach h₂ (.node d) x = .ok h₃) :
    ∃ l, (links h).Kids d l ∧ h₃ = setAfter h₂ d l (.node x) := by
  obtain ⟨c, l, e, -, hk, -, rfl⟩ := attach_eq_ok ha
  cases e
  have hc : (links (h ++ [n])).child d = (links h).child d := by
    rw [links_child, field_append_of_lt n hd]; rfl
  rw [he, Links.Kids, links_append_next hn, hc] at hk
  exact ⟨l, hk, rfl⟩

@[simp] theorem strcpyName_eq_ok {t u : CStr} : strcpyName t = .ok u ↔ t.bytes.length < nameSize ∧ u = t := by
  unfold strcpyName
  split <;> simp_all [eq_comm]

theorem strcpyName_error {t : CStr} {e : Fault} (h : strcpyName t = .error e) : e = .overflow := by
  unfold strcpyName at h
  split at h <;> cases h
  rfl

theorem sprintfChunks_error {k : ℤ} {e : Fault} (h : sprintfChunks k = .error e) : e = .overflow := by
  unfold sprintfChunks at h
  split at h <;> cases h
  rfl

/-! ### The commands -/

variable {dirname filename no_of_chunks loc file source destination : CStr}

theorem step_ls (h : Step s .ls out s') : s' = s := by
  have key : ∀ {fuel : ℕ} {p : Ptr ℕ} {o : List Byte}, (listLoop s fuel p).Ends [] o s' → s' = s := by
    intro fuel
    induction fuel with
    | zero => intro p o h; simp [listLoop] at h
    | succ fuel ih =>
      intro p o h
      cases p with
      | null =>
        simp only [listLoop, Proc.ends_write, Proc.ends_ret] at h
        obtain ⟨-, -, -, e⟩ := h
        exact e
      | unassigned => simp [listLoop, deref] at h
      | node a =>
        simp only [listLoop, Proc.ends_attempt, Proc.ends_write] at h
        obtain ⟨n, -, o₁, -, o₂, -, hk⟩ := h
        exact ih hk
  replace h : (listDirectory s).Ends [] out s' := h
  simp only [listDirectory, Proc.ends_attempt] at h
  obtain ⟨c, -, hk⟩ := h
  exact key hk

theorem step_mkdir (hs : Typed s) (h : Step s (.mkdir dirname) out s') : Change s (.mkdir dirname) out s' := by
  replace h : (makeDirectory s).Ends [dirname] out s' := h
  simp only [makeDirectory, Proc.ends_read, Proc.ends_attempt, strcpyName_eq_ok, Proc.ends_ret] at h
  obtain ⟨name, ⟨-, rfl⟩, h₁, ha, -, rfl⟩ := h
  obtain ⟨d, -, e, -⟩ := attach_eq_ok ha
  rw [e] at ha
  obtain ⟨l, hk, rfl⟩ := attach_append rfl (hs.cur d e).2.lt rfl ha
  exact .insert e rfl rfl e hk (Or.inl rfl)

theorem step_cd_iff : Step s (.cd dirname) out s' ↔
    (cdWalk s.heap (fields slash dirname) s.cur = .ok none ∧ out = (lit "1").z ∧ s' = s) ∨
      ∃ q, cdWalk s.heap (fields slash dirname) s.cur = .ok (some q) ∧ out = (lit "0").z ∧ s' = { s with cur := q } := by
  show (changeDirectory s).Ends [dirname] out s' ↔ _
  simp only [changeDirectory, Proc.ends_read, Proc.ends_attempt]
  constructor
  · rintro ⟨o, hw, h⟩
    cases o with
    | none =>
      simp only [reply, Proc.ends_write, Proc.ends_ret] at h
      obtain ⟨-, rfl, rfl, rfl⟩ := h
      exact Or.inl ⟨hw, by simp, rfl⟩
    | some q =>
      simp only [reply, Proc.ends_write, Proc.ends_ret] at h
      obtain ⟨-, rfl, rfl, rfl⟩ := h
      exact Or.inr ⟨q, hw, by simp, rfl⟩
  · rintro (⟨hw, rfl, rfl⟩ | ⟨q, hw, rfl, rfl⟩)
    · exact ⟨none, hw, by simp [reply]⟩
    · exact ⟨some q, hw, by simp [reply]⟩

theorem step_cd (h : Step s (.cd dirname) out s') : Change s (.cd dirname) out s' := by
  rcases step_cd_iff.1 h with ⟨-, -, rfl⟩ | ⟨q, hw, rfl, rfl⟩
  · exact .keep (by simp)
  · exact .enter (cdWalk_eq_some hw)

theorem step_tobigfs (hs : Typed s) (h : Step s (.tobigfs filename no_of_chunks loc) out s') :
    Change s (.tobigfs filename no_of_chunks loc) out s' := by
  replace h : (tobigfs s).Ends [filename, no_of_chunks, loc] out s' := h
  simp only [tobigfs, Proc.ends_read, Proc.ends_attempt, deref_eq_ok, Prod.exists] at h
  obtain ⟨d, dn, ⟨e, hd⟩, o, hf, h⟩ := h
  cases o with
  | some a =>
    simp only [reply, Proc.ends_write, Proc.ends_ret] at h
    obtain ⟨-, -, -, rfl⟩ := h
    exact .keep (by simp)
  | none =>
    simp only [reply, Proc.ends_write, Proc.ends_read, Proc.ends_attempt, strcpyName_eq_ok, Proc.ends_ret] at h
    obtain ⟨-, -, name, ⟨-, rfl⟩, h₁, ha, -, rfl⟩ := h
    rw [e] at ha
    obtain ⟨l, hk, rfl⟩ := attach_append rfl (lt_of_get hd) rfl ha
    have hl := hs.heap.kids_filled hk
    have hne : s.heap.length ≠ d := (lt_of_get hd).ne'
    have hnl : s.heap.length ∉ l := fun hmem => (hl _ hmem).lt.ne rfl
    rw [setLocName, setAfter_modify hne hnl, modify_append]
    refine .insert e rfl rfl e hk (Or.inr ⟨⟨_, _, _, rfl⟩, ?_⟩)
    obtain ⟨l', hl', hne⟩ := lookup_eq_none hf
    have : l = l' := by
      rw [Links.Kids, links_child_of_get hd, hl'.orNull] at hk
      exact hk.unique hl'
    exact this ▸ hne

theorem step_sendFile (h : (sendFile s).Ends [file] out s') : s' = s := by
  simp only [sendFile, Proc.ends_read, Proc.ends_attempt] at h
  obtain ⟨-, -, o, -, h⟩ := h
  cases o with
  | none => simp [reply] at h
  | some a =>
    simp only [sendLocation, reply, Proc.ends_write, Proc.ends_attempt, Proc.ends_ret] at h
    obtain ⟨o₁, -, r, -, o₂, -, c, -, o₃, -, -, rfl⟩ := h
    rfl

theorem step_rm (h : Step s (.rm file) out s') : Change s (.rm file) out s' := by
  replace h : (removefile s).Ends [file] out s' := h
  simp only [removefile, Proc.ends_read, Proc.ends_attempt] at h
  obtain ⟨o, hr, h⟩ := h
  obtain ⟨d, l, e, -, -, -, hcase⟩ := removeChild_eq_ok hr
  rcases hcase with ⟨-, rfl⟩ | ⟨v, vn, hv, hg, hname, -, rfl⟩
  · simp [reply] at h
  · simp only [sendLocation, reply, Proc.ends_write, Proc.ends_attempt, Proc.ends_ret] at h
    obtain ⟨o₁, -, r, -, o₂, -, c, -, o₃, -, -, rfl⟩ := h
    exact .remove e hv hg hname

theorem step_mv (h : Step s (.mv source destination) out s') : Change s (.mv source destination) out s' := by
  replace h : (movefile s).Ends [source, destination] out s' := h
  simp only [movefile, Proc.ends_read, Proc.ends_attempt] at h
  obtain ⟨o, hw, h⟩ := h
  cases o with
  | none =>
    simp only [reply, Proc.ends_write, Proc.ends_ret] at h
    obtain ⟨-, rfl, rfl, rfl⟩ := h
    exact .keep fun _ _ _ => by simp
  | some temp_cur =>
    simp only [Proc.ends_attempt, deref_eq_ok, Prod.exists] at h
    obtain ⟨x, xn, ⟨rfl, hx⟩, h₁, hu, dst, hdst, d, dn, ⟨ed, hd⟩, h⟩ := h
    have hr := walkSource_eq_some hw
    have hu := unlinked_of_unlink hu
    split at h
    · simp only [reply, Proc.ends_write, Proc.ends_ret] at h
      obtain ⟨-, rfl, rfl, rfl⟩ := h
      simpa using Change.unlinked hr hu
    · next hok =>
      simp only [not_or, Bool.not_eq_true] at hok
      have hDest := walkDestination_eq_ok hdst hok.2 ed
      have htype : field Node.type h₁ d = some .directory := by
        rw [field_of_get hd]
        cases ht : dn.type with
        | directory => rfl
        | file => exact absurd ht hok.1
      simp only [Proc.ends_attempt] at h
      obtain ⟨h₃, ha, h⟩ := h
      rw [ed] at ha
      obtain ⟨c, l, e, -, hk, -, rfl⟩ := attach_eq_ok ha
      cases e
      rw [links_setParent] at hk
      have hm := Change.move hr hu hDest htype hk
      cases hf : dst.found2 with
      | none =>
        simp only [hf, reply, Proc.ends_write, Proc.ends_ret] at h hm
        obtain ⟨-, rfl, rfl, rfl⟩ := h
        simpa [rename] using hm
      | some found2 =>
        simp only [hf, reply, Proc.ends_attempt, strcpyName_eq_ok, Proc.ends_write, Proc.ends_ret] at h hm
        obtain ⟨name, ⟨-, rfl⟩, o, rfl, rfl, rfl⟩ := h
        simpa [rename] using hm

/-- An accepted `cp`: where its paths lead, what the client is sent about the source, and the memory it leaves. -/
structure Copy (s : Mem) (source destination loc : CStr) (out : List Byte) (s' : Mem) (x d : ℕ) (xn : Node)
    (new : Option CStr) (l : List ℕ) : Prop where
  source : Resolve s.heap anyNode s.cur (fields slash source) (.node x)
  get : s.heap[x]? = some xn
  destination : Dest s.heap s.cur (fields slash destination) d new
  type : field Node.type s.heap d = some .directory
  kids : (links s.heap).Kids d l
  out : out = (lit "0").z ++ (xn.loc_name.z ++ (decimal xn.no_of_chunks).z)
  eq : s' = { s with
    heap := setAfter (setParent (s.heap ++ [copyNode s xn (new.getD xn.name) loc]) x (.node d)) d l
      (.node s.heap.length) }

/-- `cp` is rejected, with a new node that nothing points to if the source exists, or it is accepted. -/
theorem cp_cases (hs : Typed s) (h : Step s (.cp source destination loc) out s') :
    (out = (lit "1").z ∧ (s' = s ∨ ∃ x xn, Resolve s.heap anyNode s.cur (fields slash source) (.node x) ∧
      s.heap[x]? = some xn ∧ s' = { s with heap := s.heap ++ [newCopy s xn] })) ∨
    ∃ x d xn new l, Copy s source destination loc out s' x d xn new l := by
  replace h : (copyfile s).Ends [source, destination, loc] out s' := h
  simp only [copyfile, Proc.ends_read, Proc.ends_attempt] at h
  obtain ⟨o, hw, h⟩ := h
  cases o with
  | none =>
    simp only [reply, Proc.ends_write, Proc.ends_ret] at h
    obtain ⟨-, rfl, rfl, rfl⟩ := h
    exact Or.inl ⟨List.append_nil _, Or.inl rfl⟩
  | some temp_cur =>
    simp only [Proc.ends_attempt, deref_eq_ok, Prod.exists] at h
    obtain ⟨x, xn, ⟨rfl, hx⟩, dst, hdst, d, dn, ⟨ed, hd⟩, h⟩ := h
    have hr := walkSource_eq_some hw
    split at h
    · simp only [reply, Proc.ends_write, Proc.ends_ret] at h
      obtain ⟨-, rfl, rfl, rfl⟩ := h
      exact Or.inl ⟨List.append_nil _, Or.inr ⟨x, xn, hr, hx, rfl⟩⟩
    · next hok =>
      simp only [not_or, Bool.not_eq_true] at hok
      -- the new node is on no path yet
      have hDest := (hs.heap.dest_append rfl hs.cur.inside).1 (walkDestination_eq_ok hdst hok.2 ed)
      have hlt := (hs.heap.dest_filled hDest hs.cur.inside).lt
      rw [get_append_of_lt _ hlt] at hd
      have htype : field Node.type s.heap d = some .directory := by
        rw [field_of_get hd]
        cases ht : dn.type with
        | directory => rfl
        | file => exact absurd ht hok.1
      simp only [Proc.ends_attempt] at h
      obtain ⟨h₃, ha, name, hname, h⟩ := h
      rw [ed] at ha
      obtain ⟨l, hk, rfl⟩ := attach_append (n := newCopy s xn) rfl hlt (by simp) ha
      have hl := hs.heap.kids_filled hk
      have hne : s.heap.length ≠ d := hlt.ne'
      have hnl : s.heap.length ∉ l := fun hmem => (hl _ hmem).lt.ne rfl
      have hxne : x ≠ s.heap.length := (lt_of_get hx).ne
      simp only [sendLocation, reply, Proc.ends_write, Proc.ends_attempt, Proc.ends_read, Proc.ends_ret] at h
      obtain ⟨o₁, rfl, o₂, rfl, chunks, hchunks, o₃, rfl, rfl, rfl⟩ := h
      have hn : name = dst.found2.getD xn.name := by
        cases hf : dst.found2 with
        | none => simpa [hf, eq_comm] using hname
        | some found2 => simpa [hf] using (strcpyName_eq_ok.1 (by simpa [hf] using hname)).2
      have hc : chunks = decimal xn.no_of_chunks := by
        unfold sprintfChunks at hchunks
        split at hchunks <;> cases hchunks
        rfl
      -- the assignments to the new node commute with those that link it in
      have he : setLocName (setChild (setName (setAfter (setParent (s.heap ++ [newCopy s xn]) x (.node d)) d l
            (.node s.heap.length)) s.heap.length name) s.heap.length .null) s.heap.length loc =
          setAfter (setParent (s.heap ++ [copyNode s xn name loc]) x (.node d)) d l (.node s.heap.length) := by
        unfold setLocName setChild setName
        rw [setAfter_modify hne hnl, setAfter_modify hne hnl, setAfter_modify hne hnl, setParent, modify_comm hxne,
          modify_append, modify_comm hxne, modify_append, modify_comm hxne, modify_append]
        rfl
      subst hn hc
      refine Or.inr ⟨x, d, xn, dst.found2, l, hr, hx, hDest, htype, hk, ?_, ?_⟩
      · rw [List.append_nil]
      · rw [← he]

theorem step_cp (hs : Typed s) (h : Step s (.cp source destination loc) out s') :
    Change s (.cp source destination loc) out s' := by
  rcases cp_cases hs h with ⟨rfl, rfl | ⟨x, xn, hr, hx, rfl⟩⟩ | ⟨x, d, xn, new, l, hr, hx, hd, ht, hk, rfl, rfl⟩
  · exact .keep (by simp)
  · exact .orphan hr hx
  · exact .copy hr hx hd ht hk

/-- **The steps of the server.** -/
theorem step_cases (hs : Typed s) {c : Cmd} (h : Step s c out s') : Change s c out s' := by
  cases c with
  | ls => exact step_ls h ▸ .keep (by simp)
  | mkdir dirname => exact step_mkdir hs h
  | cd dirname => exact step_cd h
  | tobigfs filename no_of_chunks loc => exact step_tobigfs hs h
  | cat file => exact step_sendFile (show (sendFile s).Ends [file] out s' from h) ▸ .keep (by simp)
  | frombigfs file => exact step_sendFile (show (sendFile s).Ends [file] out s' from h) ▸ .keep (by simp)
  | rm file => exact step_rm h
  | mv source destination => exact step_mv h
  | cp source destination loc => exact step_cp hs h

end

end NetProg.NameServer
