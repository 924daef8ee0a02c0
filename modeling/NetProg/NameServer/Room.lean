import NetProg.NameServer.Types

/-!
# Room for names and numbers

`Room s c`: the names that the command `c` copies into a node and the chunk counts that it prints fit the arrays they
are written to.  A command with room is never stopped by an overflow (`exec_fits`).

A longer name runs over the fields of the node: after `mkdir a` and `mv a` to a name of 279 bytes the field `parent` of
the node is made of characters, and leads to no directory (`parent_overrun`).
-/

namespace NetProg.NameServer

open NetProg.Lib

/-- The names that a command copies into a node.  `mv` and `cp` copy the last component of their destination if it is
missing from a directory. -/
inductive NewName (s : Mem) : Cmd → CStr → Prop where
  | mkdir {dirname} : NewName s (.mkdir dirname) dirname
  | tobigfs {filename no_of_chunks loc} : NewName s (.tobigfs filename no_of_chunks loc) (baseName filename)
  | mv {source destination x h₁ d new} : Resolve s.heap anyNode s.cur (fields slash source) (.node x) →
      Unlinked s.heap x h₁ → Dest h₁ s.cur (fields slash destination) d (some new) →
      field Node.type h₁ d = some .directory → NewName s (.mv source destination) new
  | cp {source destination loc x d new} : Resolve s.heap anyNode s.cur (fields slash source) (.node x) →
      Dest s.heap s.cur (fields slash destination) d (some new) → field Node.type s.heap d = some .directory →
      NewName s (.cp source destination loc) new

/-- The nodes whose chunk counts a command prints. -/
inductive Printed (s : Mem) : Cmd → ℕ → Prop where
  | cat {file d n a} : deref s.heap s.cur = .ok (d, n) → lookupFile s.heap file n.child = .ok (some a) →
      Printed s (.cat file) a
  | frombigfs {file d n a} : deref s.heap s.cur = .ok (d, n) → lookupFile s.heap file n.child = .ok (some a) →
      Printed s (.frombigfs file) a
  | rm {file a h'} : removeChild s.heap s.cur file = .ok (some (a, h')) → Printed s (.rm file) a
  | cp {source destination loc x d new} : Resolve s.heap anyNode s.cur (fields slash source) (.node x) →
      Dest s.heap s.cur (fields slash destination) d new → field Node.type s.heap d = some .directory →
      Printed s (.cp source destination loc) x

/-- The names fit the field `name`, the chunk counts `char chunks[10]`. -/
structure Room (s : Mem) (c : Cmd) : Prop where
  name : ∀ t, NewName s c t → t.bytes.length < nameSize
  chunks : ∀ a n, Printed s c a → s.heap[a]? = some n → (decimal n.no_of_chunks).bytes.length < 10

section

variable {s : Mem} {h : Heap} {a d x : ℕ} {p : Ptr ℕ} {n : Node} {c : Cmd} {t : CStr} {k : ℤ}

theorem strcpyName_of_room (ht : t.bytes.length < nameSize) : strcpyName t = .ok t := if_pos ht

theorem sprintfChunks_of_room (hk : (decimal k).bytes.length < 10) : sprintfChunks k = .ok (decimal k) := if_pos hk

/-! ### The loops do not write -/

@[simp] theorem deref_ne_overflow : deref h p ≠ .error .overflow := by
  unfold deref
  split
  · simp
  · simp
  · split <;> simp

theorem find_ne_overflow {hit : Node → Bool} : ∀ {fuel : ℕ} {p : Ptr ℕ}, find h hit fuel p ≠ .error .overflow
  | 0, _ => by simp [find]
  | _ + 1, .null => by simp [find]
  | fuel + 1, .unassigned => by simp [find, deref, bind, Except.bind]
  | fuel + 1, .node a => by
    cases ha : h[a]? with
    | none => simp [find, deref, ha, bind, Except.bind]
    | some n =>
      rw [find_node ha]
      split
      · simp
      · exact find_ne_overflow

theorem findLast_ne_overflow : ∀ {fuel : ℕ} {p : Ptr ℕ}, findLast h fuel p ≠ .error .overflow
  | 0, _ => by simp [findLast]
  | fuel + 1, p => by
    intro hf
    simp only [findLast, except_bind_eq_error, deref_ne_overflow, false_or] at hf
    obtain ⟨r, -, hf⟩ := hf
    split at hf
    · cases hf
    · exact findLast_ne_overflow hf

theorem attach_ne_overflow : attach h p x ≠ .error .overflow := by
  intro ha
  simp only [attach, except_bind_eq_error, deref_ne_overflow, false_or] at ha
  obtain ⟨r, -, ha⟩ := ha
  split at ha
  · cases ha
  · simp only [except_bind_eq_error, findLast_ne_overflow, reduceCtorEq, and_false, exists_false, or_false] at ha

theorem CutLoop.ne_overflow {β : Type} {hit : Node → Prop} {done : β} {found : ℕ → ℕ → Node → β}
    {F : ℕ → ℕ → Ptr ℕ → Except Fault β} (hF : CutLoop h hit done found F) :
    ∀ {fuel prev : ℕ} {temp : Ptr ℕ}, F fuel prev temp ≠ .error .overflow
  | 0, _, _ => by simp [hF.out]
  | fuel + 1, prev, .null => by simp [hF.null]
  | fuel + 1, prev, .unassigned => by
    rw [hF.lost (e := .unassigned) (by simp) rfl]
    simp
  | fuel + 1, prev, .node a => by
    cases ha : h[a]? with
    | none =>
      rw [hF.lost (e := .unassigned) (by simp) (by simp [deref, ha])]
      simp
    | some n =>
      by_cases hn : hit n
      · simp [hF.stops ha hn]
      · rw [hF.passes ha hn]
        exact hF.ne_overflow

theorem unlink_ne_overflow : unlink h x ≠ .error .overflow := by
  intro hu
  simp only [unlink, except_bind_eq_error, deref_ne_overflow, false_or] at hu
  obtain ⟨⟨_, xn⟩, -, _, -, _, -, hu⟩ := hu
  split at hu
  · cases hu
  · exact (unlinkLoop_loop h x xn).ne_overflow hu

theorem removeChild_ne_overflow {file : CStr} : removeChild h p file ≠ .error .overflow := by
  intro hu
  simp only [removeChild, except_bind_eq_error, deref_ne_overflow, false_or] at hu
  obtain ⟨_, -, hu⟩ := hu
  split at hu
  · cases hu
  · simp only [except_bind_eq_error, deref_ne_overflow, false_or] at hu
    obtain ⟨_, -, hu⟩ := hu
    split at hu
    · cases hu
    · exact (removeLoop_loop h file).ne_overflow hu

theorem PathLoop.ne_overflow {α : Type} {enter : Node → Prop} {done : Ptr ℕ → α} {stop : CStr → List CStr → ℕ → α}
    {W : List CStr → Ptr ℕ → Except Fault α} (hW : PathLoop h enter done stop W) {l : List CStr} :
    W l p ≠ .error .overflow := by
  intro hw
  have ho := hW.outcome l p
  rw [hw] at ho
  cases ho with
  | fails _ hb =>
    obtain ⟨q, -, hq | ⟨found, a, n, -, -, hl⟩⟩ := hb
    · exact deref_ne_overflow hq
    · exact find_ne_overflow hl

theorem listLoop_not_overflow : ∀ {fuel : ℕ} {p : Ptr ℕ}, ¬ (listLoop s fuel p).Stops [] .overflow
  | 0, _ => by simp [listLoop]
  | fuel + 1, .null => by simp [listLoop]
  | fuel + 1, .unassigned => by simp [listLoop, deref]
  | fuel + 1, .node a => by
    simp only [listLoop, Proc.stops_attempt, deref_ne_overflow, false_or, Proc.stops_write, not_exists, not_and]
    intro r _
    exact listLoop_not_overflow

/-! ### The commands -/

variable {dirname source destination loc file filename no_of_chunks : CStr} {ins : List CStr}

theorem sendLocation_fits {k : Op} (hn : (decimal n.no_of_chunks).bytes.length < 10)
    (h : (sendLocation s n k).Stops ins .overflow) : k.Stops ins .overflow := by
  simpa [sendLocation, reply, sprintfChunks_of_room hn] using h

theorem makeDirectory_fits (hc : Room s (.mkdir dirname)) : ¬ (makeDirectory s).Stops [dirname] .overflow := by
  have ht := hc.name _ .mkdir
  simp only [makeDirectory, Proc.stops_read, strcpyName_of_room ht, Proc.attempt_ok, Proc.stops_attempt,
    attach_ne_overflow, Proc.stops_ret, and_false, exists_false, or_false, not_false_iff]

theorem tobigfs_fits (hc : Room s (.tobigfs filename no_of_chunks loc)) :
    ¬ (tobigfs s).Stops [filename, no_of_chunks, loc] .overflow := by
  intro h
  have ht := hc.name _ .tobigfs
  simp only [tobigfs, Proc.stops_read, Proc.stops_attempt, deref_ne_overflow, false_or] at h
  obtain ⟨r, -, h | ⟨o, -, h⟩⟩ := h
  · exact find_ne_overflow h
  · cases o with
    | some a => simp [reply] at h
    | none =>
      simp only [reply, Proc.stops_write, strcpyName_of_room ht, Proc.attempt_ok, Proc.stops_read, Proc.stops_attempt,
        attach_ne_overflow, Proc.stops_ret, and_false, exists_false, or_false] at h

theorem sendFile_fits (hc : ∀ d n a m, deref s.heap s.cur = .ok (d, n) → lookupFile s.heap file n.child = .ok (some a) →
      s.heap[a]? = some m → (decimal m.no_of_chunks).bytes.length < 10) :
    ¬ (sendFile s).Stops [file] .overflow := by
  intro h
  simp only [sendFile, Proc.stops_read, Proc.stops_attempt, deref_ne_overflow, false_or] at h
  obtain ⟨r, hr, h | ⟨o, ho, h⟩⟩ := h
  · exact find_ne_overflow h
  · cases o with
    | none => simp [reply] at h
    | some a =>
      simp only [reply, Proc.stops_write, Proc.stops_attempt, deref_ne_overflow, false_or] at h
      obtain ⟨⟨b, m⟩, hm, h⟩ := h
      obtain ⟨e, hb⟩ := deref_eq_ok.1 hm
      rw [← Ptr.node.inj e] at hb
      exact Proc.stops_ret (sendLocation_fits (hc _ _ _ _ hr ho hb) h)

theorem removefile_fits (hc : Room s (.rm file)) : ¬ (removefile s).Stops [file] .overflow := by
  intro h
  simp only [removefile, Proc.stops_read, Proc.stops_attempt, removeChild_ne_overflow, false_or] at h
  obtain ⟨o, hr, h⟩ := h
  cases o with
  | none => simp [reply] at h
  | some r =>
    obtain ⟨d, l, -, -, -, -, hcase⟩ := removeChild_eq_ok hr
    rcases hcase with ⟨-, e⟩ | ⟨v, vn, -, hg, -, -, e⟩
    · cases e
    · cases e
      simp only [reply, Proc.stops_write, Proc.stops_attempt, deref_ne_overflow, false_or] at h
      obtain ⟨⟨b, m⟩, hm, h⟩ := h
      obtain ⟨e, hm⟩ := deref_eq_ok.1 hm
      rw [← Ptr.node.inj e] at hm
      -- what is cut out keeps its chunk count
      have hk : field Node.no_of_chunks (cut s.heap d l v vn.next) v = field Node.no_of_chunks s.heap v :=
        field_cut (fun _ _ => rfl) fun _ _ => rfl
      rw [field_of_get hm, field_of_get hg, Option.some.injEq] at hk
      exact Proc.stops_ret (sendLocation_fits (hk ▸ hc.chunks _ _ (.rm hr) hg) h)

/-- The walk of a `mv` or `cp` to its source. -/
theorem source_fits {k : ℕ × Node → Op}
    (h : (Proc.attempt s (walkSource s.heap (fields slash source) s.cur) fun
      | none => reply (lit "1") (.ret s)
      | some temp_cur => .attempt s (deref s.heap temp_cur) k : Op).Stops ins .overflow) :
    ∃ x xn, Resolve s.heap anyNode s.cur (fields slash source) (.node x) ∧ s.heap[x]? = some xn ∧
      (k (x, xn)).Stops ins .overflow := by
  simp only [Proc.stops_attempt, (walkSource_loop _).ne_overflow, false_or] at h
  obtain ⟨o, hw, h⟩ := h
  cases o with
  | none => simp [reply] at h
  | some temp_cur =>
    simp only [Proc.stops_attempt, deref_ne_overflow, false_or, deref_eq_ok, Prod.exists] at h
    obtain ⟨x, xn, ⟨rfl, hx⟩, h⟩ := h
    exact ⟨x, xn, walkSource_eq_some hw, hx, h⟩

/-- And to their destination. -/
theorem destination_fits {h₁ : Heap} {s₁ : Mem} {k : Destination → Op}
    (h : (Proc.attempt s₁ (walkDestination h₁ (fields slash destination) p) fun dst =>
      .attempt s₁ (deref h₁ dst.temp_cur2) fun (_, n) =>
      if n.type = .file ∨ dst.flag then reply (lit "1") (.ret s₁) else k dst : Op).Stops ins .overflow) :
    ∃ dst d, dst.temp_cur2 = .node d ∧ Dest h₁ p (fields slash destination) d dst.found2 ∧
      field Node.type h₁ d = some .directory ∧ (k dst).Stops ins .overflow := by
  simp only [Proc.stops_attempt, (walkDestination_loop _).ne_overflow, deref_ne_overflow, false_or, deref_eq_ok,
    Prod.exists] at h
  obtain ⟨dst, hdst, d, dn, ⟨ed, hd⟩, h⟩ := h
  split at h
  · simp [reply] at h
  · next hne =>
    simp only [not_or, Bool.not_eq_true] at hne
    exact ⟨dst, d, ed, walkDestination_eq_ok hdst hne.2 ed, type_of_ne_file hd hne.1, h⟩

theorem movefile_fits (hc : Room s (.mv source destination)) :
    ¬ (movefile s).Stops [source, destination] .overflow := by
  intro h
  rw [movefile, Proc.stops_read, Proc.stops_read] at h
  obtain ⟨x, xn, hr, -, h⟩ := source_fits h
  simp only [Proc.stops_attempt (x := unlink s.heap x), unlink_ne_overflow, false_or] at h
  obtain ⟨h₁, hu, h⟩ := h
  obtain ⟨dst, d, -, hd, ht, h⟩ := destination_fits h
  rcases Proc.stops_attempt.1 h with ha | ⟨h₃, -, h⟩
  · exact attach_ne_overflow ha
  · cases hf : dst.found2 with
    | none => simp [hf, reply] at h
    | some found2 =>
      rw [hf] at hd
      have hroom := hc.name _ (.mv hr (unlinked_of_unlink hu) hd ht)
      simp [hf, strcpyName_of_room hroom, reply] at h

theorem copyfile_fits (hs : Typed s) (hc : Room s (.cp source destination loc)) :
    ¬ (copyfile s).Stops [source, destination, loc] .overflow := by
  intro h
  rw [copyfile, Proc.stops_read, Proc.stops_read] at h
  obtain ⟨x, xn, hr, hx, h⟩ := source_fits h
  obtain ⟨dst, d, -, hd, ht, h⟩ := destination_fits h
  replace hd := (hs.heap.dest_append rfl hs.cur.inside).1 hd
  replace ht : field Node.type s.heap d = some .directory := by
    rwa [field_append_of_lt _ (hs.heap.dest_filled hd hs.cur.inside).lt] at ht
  rcases Proc.stops_attempt.1 h with ha | ⟨h₃, -, h⟩
  · exact attach_ne_overflow ha
  · rcases Proc.stops_attempt.1 h with hn | ⟨name, -, h⟩
    · cases hf : dst.found2 with
      | none => simp [hf] at hn
      | some found2 =>
        rw [hf] at hd
        simp [hf, strcpyName_of_room (hc.name _ (.cp hr hd ht))] at hn
    · simp only [reply, Proc.stops_write] at h
      simpa using sendLocation_fits (hc.chunks _ _ (.cp hr hd ht) hx) h

/-- **A command with room** is stopped by no overflow. -/
theorem exec_fits (hs : Typed s) (hc : Room s c) : (exec s c).2.error ≠ some .overflow := by
  intro he
  replace he : (Proc.read () (dispatch s) : Op).Stops c.strings .overflow := Proc.error_feed.1 he
  cases c with
  | ls =>
    replace he : (listDirectory s).Stops [] .overflow := he
    simp only [listDirectory, Proc.stops_attempt, deref_ne_overflow, false_or] at he
    obtain ⟨r, -, he⟩ := he
    exact listLoop_not_overflow he
  | mkdir dirname => exact makeDirectory_fits hc he
  | cd dirname =>
    replace he : (changeDirectory s).Stops [dirname] .overflow := he
    simp only [changeDirectory, Proc.stops_read, Proc.stops_attempt, (cdWalk_loop _).ne_overflow, false_or] at he
    obtain ⟨o, -, he⟩ := he
    cases o <;> simp [reply] at he
  | tobigfs filename no_of_chunks loc => exact tobigfs_fits hc he
  | cat file => exact sendFile_fits (fun d n a m hd ha hm => hc.chunks a m (.cat hd ha) hm) he
  | frombigfs file => exact sendFile_fits (fun d n a m hd ha hm => hc.chunks a m (.frombigfs hd ha) hm) he
  | rm file => exact removefile_fits hc he
  | mv source destination => exact movefile_fits hc he
  | cp source destination loc => exact copyfile_fits hs hc he

/-! ### Commands that have room -/

theorem Dest.baseName_eq (hd : Dest h p (fields slash t) d (some file)) : file = baseName t := by
  obtain ⟨init, n, e, -⟩ := hd
  simp [baseName, e]

theorem room_mkdir (ht : dirname.bytes.length < nameSize) : Room s (.mkdir dirname) where
  name := by
    rintro t ⟨⟩
    exact ht
  chunks := by rintro a n ⟨⟩

theorem room_mkdirs (names : List CStr) (hn : ∀ t ∈ names, t.bytes.length < nameSize) :
    ∀ c ∈ names.map Cmd.mkdir, ∀ s, Room s c := by
  intro c hc s
  obtain ⟨t, ht, rfl⟩ := List.mem_map.1 hc
  exact room_mkdir (hn t ht)

theorem room_mv (ht : (baseName destination).bytes.length < nameSize) : Room s (.mv source destination) where
  name := by
    rintro t (_ | _ | ⟨-, -, hd, -⟩)
    rwa [hd.baseName_eq]
  chunks := by rintro a n ⟨⟩

theorem room_cd : Room s (.cd dirname) where
  name := by rintro t ⟨⟩
  chunks := by rintro a n ⟨⟩

end

/-- A node with a child is a directory, every node a field `parent` leads to is one, and so is the current directory
where it is a node. -/
structure OnlyDirectories (s : Mem) : Prop where
  child : ∀ (a : ℕ) (n : Node) (b : ℕ), s.heap[a]? = some n → n.child = .node b → n.type = .directory
  parent : ∀ (a : ℕ) (n : Node) (d : ℕ), s.heap[a]? = some n → n.parent = .node d →
    ∃ m, s.heap[d]? = some m ∧ m.type = .directory
  cur : ∀ d : ℕ, s.cur = .node d → ∃ m, s.heap[d]? = some m ∧ m.type = .directory

theorem Typed.onlyDirectories {s : Mem} (hs : Typed s) : OnlyDirectories s where
  child a n b ha hb := by
    rcases hs.heap.child (field_of_get ha) with e | e | ⟨ht, -⟩
    · rw [hb] at e
      cases e
    · rw [hb] at e
      cases e
    · simpa [field_of_get ha] using ht
  parent a n d ha hd := field_eq_some.1 (hs.heap.parent (field_of_get ha) d hd).1
  cur d hd := field_eq_some.1 (hs.cur d hd).1

/-- **Only directories have children** in every run whose commands have room, and these are stopped by no overflow. -/
theorem only_directories_have_children {garbage : ℕ → Node} {cs : List Cmd} {s : Mem}
    (h : Run Room (fresh garbage) cs s) :
    OnlyDirectories s ∧ ∀ c, Room s c → (exec s c).2.error ≠ some .overflow :=
  ⟨h.typed.onlyDirectories, fun _ hc => exec_fits h.typed hc⟩

theorem only_directories_have_children_cd : ∃ s, serve (fresh zeroed) [.mkdir (lit "a"), .cd (lit "a")] = some s ∧
    s.cur = .node 1 ∧ ∃ m, s.heap[1]? = some m ∧ m.type = .directory := by
  obtain ⟨s, hs⟩ := Option.isSome_iff_exists.1
    (by decide : (serve (fresh zeroed) [.mkdir (lit "a"), .cd (lit "a")]).isSome)
  have he : (serve (fresh zeroed) [.mkdir (lit "a"), .cd (lit "a")]).map Mem.cur = some (.node 1) := by decide
  rw [hs] at he
  have hcur : s.cur = .node 1 := Option.some.inj he
  have hr : Run Room (fresh zeroed) [.mkdir (lit "a"), .cd (lit "a")] s := by
    refine Run.nil.serve (fun c hc s => ?_) hs
    rcases List.mem_cons.1 hc with rfl | hc
    · exact room_mkdir (by decide)
    · exact List.mem_singleton.1 hc ▸ room_cd
  exact ⟨s, hs, hcur, (only_directories_have_children hr).1.cur 1 hcur⟩

/-- A name of 279 bytes, which with its NUL reaches to the end of the field `parent`. -/
def longName : CStr := ⟨List.replicate 279 97, by decide⟩

/-- `mkdir a` and `mv a` to a long name: once the name is copied the field `parent` of the node leads to no directory. -/
theorem parent_overrun : ∃ s s', Reachable s ∧ (exec s (.mv (lit "a") longName)).2 = .stopped .overflow s' ∧
    ¬ OnlyDirectories s' := by
  obtain ⟨s, hs, s', hs', he, hp, hlen⟩ : ∃ s ∈ serve (fresh zeroed) [.mkdir (lit "a")],
      ∃ s' ∈ (exec s (.mv (lit "a") longName)).2.left, (exec s (.mv (lit "a") longName)).2.error = some .overflow ∧
        field Node.parent s'.heap 1 = some (.node (UInt64.size + 0x61616161616161)) ∧ s'.heap.length = 2 := by
    decide +kernel
  refine ⟨s, s', reachable_serve hs, ?_, fun hd => ?_⟩
  · cases ho : (exec s (.mv (lit "a") longName)).2 with
    | stopped e r =>
      rw [ho] at hs' he
      rw [Option.some.inj hs', Option.some.inj he]
    | _ =>
      rw [ho] at he
      cases he
  · obtain ⟨n, hn, hparent⟩ := field_eq_some.1 hp
    obtain ⟨m, hm, -⟩ := hd.parent 1 n _ hn hparent
    have := lt_of_get hm
    omega

end NetProg.NameServer
