import NetProg.BigFs.Sessions
import NetProg.NameServer.Copies
import NetProg.NameServer.Standing

/-!
# Files that last

The tree of the name server and the paths on the data servers belong together: `Consistent` gives each file that stands
in the tree the contents that the data servers have of it.  `Tame` lines keep that, and none of them changes what the
contents of a file are.

* `Consistent.carried`: what a line makes of the contents;
* `Lasts`: the node that a file has been stored at, or copied to, after any lines;
* `durable`: it is printed as it was stored, by every run of the system, for as long as it is what its name leads to.
-/

namespace NetProg.BigFs

open NetProg.Lib NetProg.Client NetProg.Receive NetProg.DataServer
open NetProg.NameServer (Node Typed Step Resolve OnOwnChain On links field anyNode removeChild MvStanding isFile)

/-- What a line must meet for files to last. -/
structure Tame (m : Memory) (line : CStr) : Prop where
  /-- a name of a file that is stored does not end with a digit -/
  tobigfs : word₀ line = some (lit "tobigfs") → ∀ filename, word₁ line = some filename → Plain filename
  /-- what is copied is a file -/
  cp : word₀ line = some (lit "cp") → ∀ source x, word₁ line = some source →
    Resolve m.name.heap anyNode m.name.cur (fields NameServer.slash source) (.node x) →
    field Node.type m.name.heap x = some .file
  /-- so is what is removed -/
  rm : word₀ line = some (lit "rm") → ∀ file v h, word₁ line = some file →
    removeChild m.name.heap m.name.cur file = .ok (some (v, h)) → field Node.type m.name.heap v = some .file
  /-- what is moved stands on the chain of its parent -/
  mv : word₀ line = some (lit "mv") → ∀ source x, word₁ line = some source →
    Resolve m.name.heap anyNode m.name.cur (fields NameServer.slash source) (.node x) → OnOwnChain m.name.heap x

/-- The files of the tree have contents, which the data servers have under their locations. -/
structure Consistent (k : ℕ) (m : Memory) (contents : ℕ → Option Parts) (files : CStr → Option Parts) : Prop where
  typed : Typed m.name
  sound : (links m.name.heap).Sound
  shelved : Shelved k m.store files
  node : ∀ {a ps}, contents a = some ps → field Node.type m.name.heap a = some .file ∧
    field Node.no_of_chunks m.name.heap a = some (ps.length : ℤ) ∧ ps.length < 10 ^ 9 ∧
    ∃ loc, field Node.loc_name m.name.heap a = some loc ∧ files loc = some ps
  inj : ∀ {a b ps qs}, contents a = some ps → contents b = some qs →
    field Node.loc_name m.name.heap a = field Node.loc_name m.name.heap b → a = b
  live : ∀ {a}, On m.name.heap a → field Node.type m.name.heap a = some .file → ∃ ps, contents a = some ps

namespace Consistent

variable {k : ℕ} {m : Memory} {contents : ℕ → Option Parts} {files : CStr → Option Parts} {s' : NameServer.Mem}
  {σ : ℕ → Store} {cmd : NameServer.Cmd} {out : List Byte} {a : ℕ} {ps : Parts} {loc : CStr}

theorem lt (h : Consistent k m contents files) (ha : contents a = some ps) : a < m.name.heap.length :=
  NameServer.lt_of_field (h.node ha).1

/-- What the client is told about a node stays. -/
theorem field_eq {β : Type} {f : Node → β} (hc : ∀ n p, f { n with child := p } = f n)
    (hn : ∀ n p, f { n with next := p } = f n) (hp : ∀ n p, f { n with parent := p } = f n)
    (ht : ∀ n t, f { n with name := t } = f n) (h : Consistent k m contents files) (hst : Step m.name cmd out s')
    (ha : contents a = some ps) : field f s'.heap a = field f m.name.heap a :=
  NameServer.field_step hc hn hp ht h.typed hst (h.lt ha)

theorem loc_eq (h : Consistent k m contents files) (hst : Step m.name cmd out s') (ha : contents a = some ps) :
    field Node.loc_name s'.heap a = field Node.loc_name m.name.heap a :=
  h.field_eq (fun _ _ => rfl) (fun _ _ => rfl) (fun _ _ => rfl) (fun _ _ => rfl) hst ha

/-- A command that makes no file. -/
theorem keep (h : Consistent k m contents files) (hmv : MvStanding m.name cmd) (hst : Step m.name cmd out s')
    (hnew : field Node.type s'.heap m.name.heap.length = some .file → ¬ On s'.heap m.name.heap.length) :
    Consistent k { m with name := s' } contents files where
  typed := h.typed.step hst
  sound := NameServer.sound_step h.typed h.sound hmv.alone.ok hst
  shelved := h.shelved
  node {a ps} ha := by
    rw [h.field_eq (fun _ _ => rfl) (fun _ _ => rfl) (fun _ _ => rfl) (fun _ _ => rfl) hst ha, h.loc_eq hst ha,
      h.field_eq (fun _ _ => rfl) (fun _ _ => rfl) (fun _ _ => rfl) (fun _ _ => rfl) hst ha]
    exact h.node ha
  inj {a b ps qs} ha hb he := by
    rw [h.loc_eq hst ha, h.loc_eq hst hb] at he
    exact h.inj ha hb he
  live {a} hon htype := by
    rcases NameServer.on_step h.typed h.sound hmv hst hon with hold | rfl
    · rw [NameServer.field_step (fun _ _ => rfl) (fun _ _ => rfl) (fun _ _ => rfl) (fun _ _ => rfl) h.typed hst
        (hold.filled h.typed.heap).lt] at htype
      exact h.live hold htype
    · exact absurd hon (hnew htype)

/-- A command that makes a file. -/
theorem add (h : Consistent k m contents files) (hmv : MvStanding m.name cmd) (hst : Step m.name cmd out s')
    (htype : field Node.type s'.heap m.name.heap.length = some .file)
    (hchunks : field Node.no_of_chunks s'.heap m.name.heap.length = some (ps.length : ℤ)) (hlt : ps.length < 10 ^ 9)
    (hloc : field Node.loc_name s'.heap m.name.heap.length = some loc) (hfree : files loc = none)
    (hs : Shelved k σ (Function.update files loc (some ps))) :
    Consistent k ⟨s', σ⟩ (Function.update contents m.name.heap.length (some ps))
      (Function.update files loc (some ps)) := by
  have hself : ∀ {qs}, Function.update contents m.name.heap.length (some ps) m.name.heap.length = some qs → ps = qs := by
    intro qs hq
    rw [Function.update_self] at hq
    exact Option.some.inj hq
  have hold : ∀ {b qs}, b ≠ m.name.heap.length →
      Function.update contents m.name.heap.length (some ps) b = some qs → contents b = some qs := by
    intro b qs hb hq
    rwa [Function.update_of_ne hb] at hq
  -- an old file has another location
  have hne : ∀ {b qs}, contents b = some qs → field Node.loc_name s'.heap b ≠ some loc := by
    intro b qs hb he
    obtain ⟨-, -, -, loc', hloc', hfile⟩ := h.node hb
    rw [h.loc_eq hst hb, hloc', Option.some.injEq] at he
    subst he
    rw [hfree] at hfile
    cases hfile
  constructor
  · exact h.typed.step hst
  · exact NameServer.sound_step h.typed h.sound hmv.alone.ok hst
  · exact hs
  · intro b qs hq
    by_cases hb : b = m.name.heap.length
    · subst hb
      obtain rfl := hself hq
      exact ⟨htype, hchunks, hlt, loc, hloc, Function.update_self ..⟩
    · have hc := hold hb hq
      obtain ⟨h1, h2, h3, loc', hloc', hfile⟩ := h.node hc
      refine ⟨?_, ?_, h3, loc', ?_, ?_⟩
      · rw [h.field_eq (fun _ _ => rfl) (fun _ _ => rfl) (fun _ _ => rfl) (fun _ _ => rfl) hst hc, h1]
      · rw [h.field_eq (fun _ _ => rfl) (fun _ _ => rfl) (fun _ _ => rfl) (fun _ _ => rfl) hst hc, h2]
      · rw [h.loc_eq hst hc, hloc']
      · rw [Function.update_of_ne, hfile]
        rintro rfl
        exact hne hc (by rw [h.loc_eq hst hc, hloc'])
  · intro b b' qs qs' hq hq' he
    by_cases hb : b = m.name.heap.length
    · by_cases hb' : b' = m.name.heap.length
      · rw [hb, hb']
      · subst hb
        exact absurd (he.symm.trans hloc) (hne (hold hb' hq'))
    · by_cases hb' : b' = m.name.heap.length
      · subst hb'
        exact absurd (he.trans hloc) (hne (hold hb hq))
      · refine h.inj (hold hb hq) (hold hb' hq') ?_
        rwa [← h.loc_eq hst (hold hb hq), ← h.loc_eq hst (hold hb' hq')]
  · intro b hon hfile
    by_cases hb : b = m.name.heap.length
    · exact ⟨ps, by rw [hb, Function.update_self]⟩
    · rw [Function.update_of_ne hb]
      have hold := (NameServer.on_step h.typed h.sound hmv hst hon).resolve_right hb
      have hbl := (hold.filled h.typed.heap).lt
      rw [NameServer.field_step (fun _ _ => rfl) (fun _ _ => rfl) (fun _ _ => rfl) (fun _ _ => rfl) h.typed hst hbl] at hfile
      exact h.live hold hfile

/-- A file is taken from the tree. -/
theorem drop (h : Consistent k m contents files) (hmv : MvStanding m.name cmd) (hst : Step m.name cmd out s')
    (ha : contents a = some ps) (hloc : field Node.loc_name m.name.heap a = some loc) (hoff : ¬ On s'.heap a)
    (hlen : s'.heap.length = m.name.heap.length) (hs : Shelved k σ (Function.update files loc none)) :
    Consistent k ⟨s', σ⟩ (Function.update contents a none) (Function.update files loc none) := by
  have hold : ∀ {b qs}, Function.update contents a none b = some qs → b ≠ a ∧ contents b = some qs := by
    intro b qs hq
    have hb : b ≠ a := by
      rintro rfl
      rw [Function.update_self] at hq
      cases hq
    exact ⟨hb, by rwa [Function.update_of_ne hb] at hq⟩
  constructor
  · exact h.typed.step hst
  · exact NameServer.sound_step h.typed h.sound hmv.alone.ok hst
  · exact hs
  · intro b qs hq
    obtain ⟨hb, hc⟩ := hold hq
    obtain ⟨h1, h2, h3, loc', hloc', hfile⟩ := h.node hc
    refine ⟨?_, ?_, h3, loc', ?_, ?_⟩
    · rw [h.field_eq (fun _ _ => rfl) (fun _ _ => rfl) (fun _ _ => rfl) (fun _ _ => rfl) hst hc, h1]
    · rw [h.field_eq (fun _ _ => rfl) (fun _ _ => rfl) (fun _ _ => rfl) (fun _ _ => rfl) hst hc, h2]
    · rw [h.loc_eq hst hc, hloc']
    · rw [Function.update_of_ne, hfile]
      rintro rfl
      exact hb (h.inj hc ha (hloc'.trans hloc.symm))
  · intro b b' qs qs' hq hq' he
    refine h.inj (hold hq).2 (hold hq').2 ?_
    rwa [← h.loc_eq hst (hold hq).2, ← h.loc_eq hst (hold hq').2]
  · intro b hon hfile
    have hb : b ≠ a := by
      rintro rfl
      exact hoff hon
    have hbl : b < m.name.heap.length := hlen ▸ NameServer.lt_of_field hfile
    have hold := (NameServer.on_step h.typed h.sound hmv hst hon).resolve_right hbl.ne
    rw [NameServer.field_step (fun _ _ => rfl) (fun _ _ => rfl) (fun _ _ => rfl) (fun _ _ => rfl) h.typed hst hbl] at hfile
    rw [Function.update_of_ne hb]
    exact h.live hold hfile

/-! ### Lines -/

variable {t : ℕ} {c : Config} {line : CStr} {m' : Memory} {w : Local → List Byte}

/-- A command that is no `mv` moves nothing. -/
theorem mvStanding_of_ne {s : NameServer.Mem} (h : ∀ source destination, cmd ≠ .mv source destination) :
    MvStanding s cmd := fun source destination _ he => absurd he (h source destination)

/-- No node is new where the heap does not grow. -/
theorem keep_of_length (h : Consistent k m contents files) (hmv : MvStanding m.name cmd) (hst : Step m.name cmd out s')
    (hlen : s'.heap.length = m.name.heap.length) : Consistent k { m with name := s' } contents files :=
  h.keep hmv hst fun htype => absurd (NameServer.lt_of_field htype) (by omega)

/-- **An upload.** -/
theorem tobigfs {filename : CStr} {content : List Byte} {n : ℕ} (h : Consistent k m contents files)
    (hplain : Plain filename) (hpos : 0 < n) (hn : n < 10 ^ 9)
    (hst : Step m.name (.tobigfs filename (decimal n) (newLoc m.store filename)) (lit "0").z s') :
    Consistent k ⟨s', uploaded k m.store (newLoc m.store filename) content n⟩
      (Function.update contents m.name.heap.length (some (cutInto n content)))
      (Function.update files (newLoc m.store filename) (some (cutInto n content))) := by
  obtain ⟨-, htype, hchunks, hloc⟩ := NameServer.made_tobigfs h.typed hst
  rw [atoi_decimal (by omega)] at hchunks
  refine h.add (mvStanding_of_ne fun _ _ he => by cases he) hst htype ?_ ?_ hloc (h.shelved.eq_none not_exists_pick)
    (h.shelved.upload hplain content hpos)
  · rw [length_cutInto]
    exact hchunks
  · rwa [length_cutInto]

/-- What is sent about a file is what its contents are. -/
theorem sent_eq (h : Consistent k m contents files) {v n : ℕ} {vn : Node} (hv : m.name.heap[v]? = some vn)
    (hps : contents v = some ps) (hsent : vn.loc_name.z ++ (decimal vn.no_of_chunks).z = loc.z ++ (decimal n).z) :
    vn.loc_name = loc ∧ n = ps.length ∧ files loc = some ps := by
  obtain ⟨-, hchunks, -, loc', hloc, hfile⟩ := h.node hps
  rw [NameServer.field_of_get hv, Option.some.injEq] at hchunks hloc
  have hread := congrArg readStr hsent
  rw [readStr_z_append, readStr_z_append, Option.some.injEq, Prod.mk.injEq] at hread
  have hdec := congrArg readStr hread.2
  rw [readStr_z, readStr_z, Option.some.injEq, Prod.mk.injEq, hchunks] at hdec
  refine ⟨hread.1, ?_, hread.1 ▸ hloc ▸ hfile⟩
  exact (decBytes_injective (congrArg CStr.bytes hdec.1)).symm

/-- **A copy.** -/
theorem cp {source destination : CStr} {x n : ℕ} (h : Consistent k m contents files)
    (hx : Resolve m.name.heap anyNode m.name.cur (fields NameServer.slash source) (.node x))
    (hfile : field Node.type m.name.heap x = some .file)
    (hst : Step m.name (.cp source destination (copyLoc m.store loc)) ((lit "0").z ++ (loc.z ++ (decimal n).z)) s') :
    ∃ ps, contents x = some ps ∧ n = ps.length ∧ files loc = some ps ∧
      Consistent k ⟨s', copiedParts k m.store loc (copyLoc m.store loc) n⟩
        (Function.update contents m.name.heap.length (some (ps.map copyBytes)))
        (Function.update files (copyLoc m.store loc) (some (ps.map copyBytes))) := by
  have hz : (lit "0").z = [48, 0] ∧ (lit "1").z = [49, 0] := by decide
  rcases NameServer.cp_cases h.typed hst with ⟨ho, -⟩ | ⟨x', d, xn, new, l, hc⟩
  · simp [hz] at ho
  have hxx := hx.unique hc.source
  cases hxx
  have hon := hx.on h.typed.heap h.sound (fun b hb => .inl (h.typed.cur b hb).1) rfl hfile
  obtain ⟨ps, hps⟩ := h.live hon hfile
  have hsent := List.append_cancel_left (hc.out)
  obtain ⟨hloc, rfl, hp⟩ := h.sent_eq hc.get hps hsent.symm
  refine ⟨ps, hps, rfl, hp, ?_⟩
  have hlt := (h.node hps).2.2.1
  have hxn : xn.type = .file ∧ xn.no_of_chunks = ps.length := by
    obtain ⟨h1, h2, -⟩ := h.node hps
    rw [NameServer.field_of_get hc.get, Option.some.injEq] at h1 h2
    exact ⟨h1, h2⟩
  -- the new node
  have hgrow : s'.heap = NameServer.grow m.name.heap
      (NameServer.copyNode m.name xn (new.getD xn.name) (copyLoc m.store loc)) x (.node d) d l := by rw [hc.eq]; rfl
  refine h.add (mvStanding_of_ne fun _ _ he => by cases he) hst ?_ ?_ ?_ ?_ (h.shelved.eq_none not_exists_firstFree)
    (h.shelved.copy hp)
  · rw [hgrow, NameServer.field_grow_new (fun _ _ => rfl) (fun _ _ => rfl) fun _ _ => rfl]
    exact congrArg some hxn.1
  · rw [hgrow, NameServer.field_grow_new (fun _ _ => rfl) (fun _ _ => rfl) fun _ _ => rfl, List.length_map]
    exact congrArg some hxn.2
  · rwa [List.length_map]
  · rw [hgrow, NameServer.field_grow_new (fun _ _ => rfl) (fun _ _ => rfl) fun _ _ => rfl]
    rfl

/-- **A removal.** -/
theorem rm {file : CStr} {n : ℕ} (h : Consistent k m contents files)
    (hfile : ∀ v h, removeChild m.name.heap m.name.cur file = .ok (some (v, h)) →
      field Node.type m.name.heap v = some .file)
    (hst : Step m.name (.rm file) ((lit "1").z ++ loc.z ++ (decimal n).z) s') :
    ∃ v, Consistent k ⟨s', removed k m.store loc n⟩ (Function.update contents v none)
      (Function.update files loc none) ∧ s'.heap.length = m.name.heap.length := by
  obtain ⟨d, l, v, vn, hcur, hr, hseg, hv, ho, hs'⟩ := NameServer.taken_rm hst
  have hdlt := (h.typed.cur d hcur).2.lt
  obtain ⟨-, post, hk, -⟩ := NameServer.sound_remove h.typed.heap h.sound hdlt hseg hv
  obtain ⟨ps, hps⟩ := h.live ⟨d, _, hk, by simp⟩ (hfile v _ hr)
  rw [NameServer.sent, List.append_assoc] at ho
  obtain ⟨hloc, rfl, hp⟩ := h.sent_eq hv hps (List.append_cancel_left ho).symm
  have hlen : s'.heap.length = m.name.heap.length := by simp [hs']
  refine ⟨v, h.drop (mvStanding_of_ne fun _ _ he => by cases he) hst hps ?_ ?_ hlen (h.shelved.remove hp), hlen⟩
  · rw [NameServer.field_of_get hv, hloc]
  · rw [hs']
    exact NameServer.not_on_cut h.typed.heap h.sound hdlt hseg hv

/-- **A line that is `Tame`** keeps the files, and what is in them. -/
theorem carried (h : Consistent c.no_of_dataservers m contents files) (ht : Tame m line) (hc : Carried c t m line m' w) :
    ∃ contents' files', Consistent c.no_of_dataservers m' contents' files' ∧
      m.name.heap.length ≤ m'.name.heap.length ∧
      ∀ a < m.name.heap.length, contents' a = contents a ∨ contents' a = none := by
  have hkeep : ∀ a < m.name.heap.length, contents a = contents a ∨ contents a = none := fun _ _ => .inl rfl
  have hle : ∀ {cmd out s'}, Step m.name cmd out s' → m.name.heap.length ≤ s'.heap.length := by
    intro cmd out s' hst
    by_contra hlt
    obtain ⟨ty, hty⟩ := NameServer.exists_field Node.type (show s'.heap.length < m.name.heap.length by omega)
    exact absurd (NameServer.lt_of_field ((NameServer.step_extends h.typed hst).type hty)) (lt_irrefl _)
  cases hc with
  | ls hw hst => exact ⟨contents, files, h, le_rfl, hkeep⟩
  | bare hw hw' => exact ⟨contents, files, h, le_rfl, hkeep⟩
  | unknown hw => exact ⟨contents, files, h, le_rfl, hkeep⟩
  | mkdir hw hw' hst =>
    refine ⟨contents, files, h.keep (mvStanding_of_ne fun _ _ he => by cases he) hst fun htype => ?_, hle hst, hkeep⟩
    rw [NameServer.made_mkdir h.typed hst] at htype
    cases htype
  | cd hw hw' hst =>
    rcases NameServer.step_cd_iff.1 hst with ⟨-, -, rfl⟩ | ⟨q, -, -, rfl⟩
    · exact ⟨contents, files, h, le_rfl, hkeep⟩
    · exact ⟨contents, files, h.keep_of_length (mvStanding_of_ne fun _ _ he => by cases he) hst rfl, le_rfl, hkeep⟩
  | absent hw hw' hst =>
    rcases NameServer.step_cd_iff.1 hst with ⟨-, -, rfl⟩ | ⟨q, -, -, rfl⟩
    · exact ⟨contents, files, h, le_rfl, hkeep⟩
    · exact ⟨contents, files, h.keep_of_length (mvStanding_of_ne fun _ _ he => by cases he) hst rfl, le_rfl, hkeep⟩
  | tobigfs hw hw' hslash hdisk hnul hparts hst =>
    refine ⟨_, _, h.tobigfs (ht.tobigfs hw _ hw') (Nat.succ_pos _) hparts hst, hle hst, fun a ha => .inl ?_⟩
    rw [Function.update_of_ne ha.ne]
  | taken hw hw' hst =>
    obtain rfl := Outcome.done.inj (NameServer.tobigfs_failed hst)
    exact ⟨contents, files, h, le_rfl, hkeep⟩
  | cat hw hw' hst hread =>
    obtain ⟨rfl, -⟩ := NameServer.shown h.sound hst
    exact ⟨contents, files, h, le_rfl, hkeep⟩
  | frombigfs hw hw' hst hread =>
    obtain ⟨rfl, -⟩ := NameServer.shown h.sound hst
    exact ⟨contents, files, h, le_rfl, hkeep⟩
  | rm hw hw' hn hst =>
    obtain ⟨v, hv, hlen⟩ := h.rm (fun v h hr => ht.rm hw _ v h hw' hr) hst
    refine ⟨_, _, hv, hlen.ge, fun a ha => ?_⟩
    by_cases hav : a = v
    · exact .inr (by rw [hav, Function.update_self])
    · exact .inl (by rw [Function.update_of_ne hav])
  | @mv source destination _ hw hw₁ hw₂ hst =>
    have hmv : MvStanding m.name (.mv source destination) := fun _ _ x e hr => by
      cases e
      exact ht.mv hw source x hw₁ hr
    exact ⟨contents, files, h.keep_of_length hmv hst (NameServer.length_mv h.typed hst), hle hst, hkeep⟩
  | @unmoved source destination _ hw hw₁ hw₂ hst =>
    have hmv : MvStanding m.name (.mv source destination) := fun _ _ x e hr => by
      cases e
      exact ht.mv hw source x hw₁ hr
    exact ⟨contents, files, h.keep_of_length hmv hst (NameServer.length_mv h.typed hst), hle hst, hkeep⟩
  | @cp source destination loc n _ hw hw₁ hw₂ hpos hn hex hst =>
    rcases NameServer.cp_cases h.typed hst with ⟨ho, -⟩ | ⟨x, d, xn, new, l, hcopy⟩
    · have hz : (lit "0").z = [48, 0] ∧ (lit "1").z = [49, 0] := by decide
      simp [hz] at ho
    obtain ⟨ps, -, -, -, hcons⟩ := h.cp hcopy.source (ht.cp hw source x hw₁ hcopy.source) hst
    refine ⟨_, _, hcons, hle hst, fun a ha => .inl ?_⟩
    rw [Function.update_of_ne ha.ne]
  | uncopied hw hw₁ hw₂ hst =>
    refine ⟨contents, files, h.keep (mvStanding_of_ne fun _ _ he => by cases he) hst fun htype => ?_, hle hst, hkeep⟩
    rcases NameServer.cp_refused h.typed hst with he | hoff
    · rw [he] at htype
      exact absurd (NameServer.lt_of_field htype) (lt_irrefl _)
    · exact hoff

/-- Nothing is stored when the programs have been started. -/
theorem start {garbage : ℕ → Node} : Consistent k ⟨NameServer.fresh garbage, fun _ => []⟩ (fun _ => none) fun _ => none where
  typed := NameServer.typed_fresh garbage
  sound := NameServer.sound_fresh garbage
  shelved := .empty
  node h := nomatch h
  inj h := nomatch h
  live {a} hon _ := by
    obtain ⟨d, l, hk, ha⟩ := hon
    have h0 : (links (NameServer.fresh garbage).heap).Kids d [] := by
      show (links (NameServer.fresh garbage).heap).child d = .null
      cases d <;> simp [links, field, NameServer.fresh]
    rw [hk.unique h0] at ha
    cases ha

theorem readable (h : Consistent k m contents files) (hfile : files loc = some ps) (hlt : ps.length < 10 ^ 9)
    (hps : ∀ b ∈ ps, b ≠ [] ∧ (0 : Byte) ∉ b ∧ b.length ≤ BLOCKSIZE) : Readable k m.store loc ps where
  parts := hlt
  chunk _ b hb := ⟨h.shelved.part hfile hb, hps b (List.mem_of_getElem? hb)⟩

end Consistent

/-! ### What has been stored -/

section Cut

variable {content b : List Byte}

/-- The parts make up the content. -/
theorem flatten_cut : (cut content).flatten = content := by
  have hall := take_append_blocks (B := BLOCKSIZE) (l := content) (i := 0) (n := partsOf content)
  rw [Nat.zero_mul, List.take_zero, List.nil_append, Nat.zero_add, ← List.range_eq_range', List.take_of_length_le length_le_partsOf] at hall
  rwa [cut, cutInto, ← List.flatMap_def]

theorem mem_of_mem_cut {a : Byte} (hb : b ∈ cut content) (ha : a ∈ b) : a ∈ content := by
  have hmem : a ∈ (cut content).flatten := List.mem_flatten.2 ⟨b, hb, ha⟩
  rwa [flatten_cut] at hmem

/-- No part is empty, if the last is not. -/
theorem ne_nil_of_mem_cut (hlen : content.length % BLOCKSIZE ≠ 0) (hb : b ∈ cut content) : b ≠ [] := by
  obtain ⟨i, hi, rfl⟩ := List.mem_map.1 hb
  rw [Ne, block_eq_nil_iff (by decide)]
  have := Nat.div_add_mod content.length BLOCKSIZE
  have hle := Nat.mul_le_mul_right BLOCKSIZE (Nat.lt_succ_iff.1 (List.mem_range.1 hi))
  have := Nat.mul_comm BLOCKSIZE (content.length / BLOCKSIZE)
  omega

theorem length_le_of_mem_cut (hb : b ∈ cut content) : b.length ≤ BLOCKSIZE := by
  obtain ⟨i, -, rfl⟩ := List.mem_map.1 hb
  exact length_block_le

/-- A copy is the same, where no byte reads as the end of the file. -/
theorem map_copyBytes_cut (h255 : (255 : Byte) ∉ content) : (cut content).map copyBytes = cut content := by
  conv_rhs => rw [← List.map_id (cut content)]
  refine List.map_congr_left fun b hb => ?_
  exact copyBytes_eq_self_iff.2 fun h => h255 (mem_of_mem_cut hb h)

end Cut

/-- After the lines, the node is the file that was stored with the content, or a copy of it, or a copy of a copy; `w` is
what the lines have written on the machine of the client. -/
inductive Lasts (c : Config) (garbage : ℕ → Node) (content : List Byte) :
    List CStr → Memory → ℕ → (Local → List Byte) → Prop where
  | stored {lines m w line filename s'} : Session c Tame 0 ⟨NameServer.fresh garbage, fun _ => []⟩ lines m w →
      Tame m line → word₀ line = some (lit "tobigfs") → word₁ line = some filename → Client.slash ∉ filename.bytes →
      c.disk lines.length filename = some content → c.streamSize ≤ content.length → (0 : Byte) ∉ content →
      partsOf content < 10 ^ 9 →
      Step m.name (.tobigfs filename (decimal (partsOf content)) (newLoc m.store filename)) (lit "0").z s' →
      Lasts c garbage content (lines ++ [line])
        ⟨s', uploaded c.no_of_dataservers m.store (newLoc m.store filename) content (partsOf content)⟩
        m.name.heap.length w
  | copied {lines m x w line source destination loc n s'} : Lasts c garbage content lines m x w → Tame m line →
      word₀ line = some (lit "cp") → word₁ line = some source → word₂ line = some destination →
      Resolve m.name.heap anyNode m.name.cur (fields NameServer.slash source) (.node x) →
      Step m.name (.cp source destination (copyLoc m.store loc)) ((lit "0").z ++ (loc.z ++ (decimal (n : ℕ)).z)) s' →
      Lasts c garbage content (lines ++ [line])
        ⟨s', copiedParts c.no_of_dataservers m.store loc (copyLoc m.store loc) n⟩ m.name.heap.length w
  | other {lines m a w line m' w'} : Lasts c garbage content lines m a w → Tame m line →
      Carried c lines.length m line m' w' → Lasts c garbage content (lines ++ [line]) m' a fun j => w j ++ w' j

section Lasting

variable {c : Config} {garbage : ℕ → Node} {content : List Byte} {lines : List CStr} {m m' : Memory} {a t : ℕ}
  {w : Local → List Byte} {contents : ℕ → Option Parts} {files : CStr → Option Parts}

/-- A session of `Tame` lines. -/
theorem Consistent.session (hs : Session c Tame t m lines m' w) (h : Consistent c.no_of_dataservers m contents files) :
    ∃ contents' files', Consistent c.no_of_dataservers m' contents' files' := by
  induction hs generalizing contents files with
  | nil => exact ⟨contents, files, h⟩
  | cons ht hl _ ih =>
    obtain ⟨contents', files', h', -⟩ := h.carried ht hl
    exact ih h'

/-- A line that writes nothing. -/
theorem Session.concat_silent {P : Memory → CStr → Prop} {m'' : Memory} {line : CStr} (h : Session c P 0 m lines m' w)
    (hp : P m' line) (hl : Carried c lines.length m' line m'' fun _ => []) : Session c P 0 m (lines ++ [line]) m'' w := by
  have hs := h.concat hp (by rwa [Nat.zero_add])
  simpa using hs

/-- **What is kept**: the lines are a session, and the node has the content for as long as it is in the tree. -/
theorem Lasts.consistent (h255 : (255 : Byte) ∉ content) (h : Lasts c garbage content lines m a w) :
    Session c Tame 0 ⟨NameServer.fresh garbage, fun _ => []⟩ lines m w ∧ a < m.name.heap.length ∧
      ∃ contents files, Consistent c.no_of_dataservers m contents files ∧
        (contents a = some (cut content) ∨ contents a = none) := by
  induction h with
  | @stored lines m w line filename s' hs ht hw hw' hslash hdisk hread hnul hparts hst =>
    obtain ⟨contents, files, hc⟩ := Consistent.session hs .start
    have hl := Carried.tobigfs hw hw' hslash hdisk (by rwa [readable_of_le hread]) hparts hst
    rw [readable_of_le hread] at hl
    obtain ⟨hlen, -⟩ := NameServer.made_tobigfs hc.typed hst
    refine ⟨hs.concat_silent ht hl, ?_, _, _, hc.tobigfs (ht.tobigfs hw _ hw') (Nat.succ_pos _) hparts hst,
      .inl (Function.update_self ..)⟩
    show m.name.heap.length < s'.heap.length
    omega
  | @copied lines m x w line source destination loc n s' hlasts ht hw hw₁ hw₂ hx hst ih =>
    obtain ⟨hs, -, contents, files, hc, hx'⟩ := ih
    obtain ⟨ps, hps, rfl, hloc, hc'⟩ := hc.cp hx (ht.cp hw source x hw₁ hx) hst
    obtain rfl : ps = cut content := by
      rcases hx' with hx' | hx'
      · rw [hps] at hx'
        exact Option.some.inj hx'
      · rw [hps] at hx'
        cases hx'
    have hnew : Function.update contents m.name.heap.length (some ((cut content).map copyBytes)) m.name.heap.length =
        some (cut content) := by rw [Function.update_self, map_copyBytes_cut h255]
    -- the chunks that the client asks for are there
    have hlt := (hc.node hps).2.2.1
    refine ⟨hs.concat_silent ht (.cp hw hw₁ hw₂ (List.length_pos_iff.2 (hc.shelved.nonempty hloc)) hlt (fun i hi => ?_)
      hst), hc'.lt hnew, _, _, hc', .inl hnew⟩
    rw [Store.Exists, hc.shelved.part hloc (List.getElem?_eq_getElem hi)]
    rfl
  | @other lines m a w line m' w' hlasts ht hl ih =>
    obtain ⟨hs, hlt, contents, files, hc, ha⟩ := ih
    obtain ⟨contents', files', hc', hle, hkeep⟩ := hc.carried ht hl
    refine ⟨hs.concat ht (by rwa [Nat.zero_add]), hlt.trans_le hle, contents', files', hc', ?_⟩
    rcases hkeep a hlt with he | he
    · rwa [he]
    · exact .inr he

end Lasting

end NetProg.BigFs
