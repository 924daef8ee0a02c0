import NetProg.BigFs.Files
import NetProg.BigFs.Transfer

/-!
# Files in one directory

Completed uploads, copies and removals, one after the other, on the files of all data servers.  `FileSystem.step` is
what the system does (`step_ends`).  Locations and the numbers of chunks are joined without a separator, so that the
location of one file, or a chunk of it, can have the path of a chunk of another: `Isolating` says that an operation opens
or removes no such path without looking.

`isolated`: in a run of operations that are `Isolating`, every chunk keeps its content until its file is removed.
-/

namespace NetProg.BigFs

open NetProg.Lib NetProg.Client NetProg.Receive NetProg.DataServer

/-- A file that is registered: its location, the number of its parts, and what the servers had of it at first. -/
structure File where
  loc : CStr
  parts : ℕ
  held : ℕ → Option (List Byte)

/-- The files of the data servers, and those that are registered. -/
structure FileSystem where
  store : ℕ → Store
  live : List File

/-- A completed operation: an upload with what is read of the file (`readable`), the others with the place of a file among
the registered ones, the last one first. -/
inductive FileOp where
  | tobigfs (name : CStr) (content : List Byte)
  | cp (a : ℕ)
  | rm (a : ℕ)

namespace FileSystem

/-- No file has been stored. -/
def empty : FileSystem := ⟨fun _ => [], []⟩

/-- A file is registered. -/
def register (k : ℕ) (x : FileSystem) (store : ℕ → Store) (loc : CStr) (parts : ℕ) : FileSystem where
  store := store
  live := ⟨loc, parts, fun i => (store (i % k)).get (loc.cat (decimal i))⟩ :: x.live

/-- What is left by an operation that is completed on `k` data servers. -/
def step (k : ℕ) (x : FileSystem) : FileOp → Option FileSystem
  | .tobigfs name content =>
    if Client.slash ∉ name.bytes ∧ (0 : Byte) ∉ content ∧ partsOf content < 10 ^ 9 then
      some (x.register k (uploaded k x.store (newLoc x.store name) content (partsOf content)) (newLoc x.store name)
        (partsOf content))
    else none
  | .cp a => x.live[a]?.bind fun f =>
    if 0 < f.parts ∧ f.parts < 10 ^ 9 ∧ ∀ i < f.parts, (x.store (i % k)).Exists (f.loc.cat (decimal i)) then
      some (x.register k (copiedParts k x.store f.loc (copyLoc x.store f.loc) f.parts) (copyLoc x.store f.loc) f.parts)
    else none
  | .rm a => x.live[a]?.bind fun f =>
    if f.parts < 10 ^ 9 then some ⟨removed k x.store f.loc f.parts, x.live.eraseIdx a⟩ else none

end FileSystem

/-! ### The paths that an operation uses without looking -/

section Paths

variable (k : ℕ)

/-- The server `j` holds a chunk of the file under the path. -/
def File.At (f : File) (j : ℕ) (p : CStr) : Prop :=
  ∃ i < f.parts, i % k = j ∧ (f.held i).isSome ∧ p = f.loc.cat (decimal i)

/-- It holds no chunk of any of the files under the path. -/
def Clear (live : List File) (j : ℕ) (p : CStr) : Prop := ∀ f ∈ live, ¬ f.At k j p

/-- The operation opens or removes no path of a chunk of another file without asking whether it exists. -/
def Isolating (x : FileSystem) : FileOp → Prop
  | .tobigfs name content => ∀ i < partsOf content,
      Clear k x.live (i % k) ((partLoc k x.store (newLoc x.store name) i).cat (decimal i)) ∧
      (k ≤ i → Clear k x.live (i % k) (newLoc x.store name))
  | .cp a => ∀ f ∈ x.live[a]?, ∀ i < f.parts, Clear k x.live (i % k) ((copyLoc x.store f.loc).cat (decimal i))
  | .rm a => ∀ f ∈ x.live[a]?, ∀ i < f.parts,
      Clear k (x.live.eraseIdx a) (i % k) f.loc ∧ Clear k (x.live.eraseIdx a) (i % k) (f.loc.cat (decimal i))

/-- Every chunk of a registered file has the content that it had at first. -/
def Kept (x : FileSystem) : Prop :=
  ∀ f ∈ x.live, ∀ i < f.parts, ∀ b, f.held i = some b → (x.store (i % k)).get (f.loc.cat (decimal i)) = some b

end Paths

section Step

variable {k : ℕ} {x y : FileSystem} {f : File} {op : FileOp}

theorem ne_of_clear {live : List File} {i j : ℕ} {p : CStr} (h : Clear k live j p) (hf : f ∈ live) (hi : i < f.parts)
    (hj : i % k = j) (hh : (f.held i).isSome) : f.loc.cat (decimal i) ≠ p :=
  fun he => h f hf ⟨i, hi, hj, hh, he.symm⟩

/-- A file that is registered is held as it is. -/
theorem kept_register {store : ℕ → Store} {loc : CStr} {parts : ℕ}
    (h : ∀ f ∈ x.live, ∀ i < f.parts, ∀ b, f.held i = some b → (store (i % k)).get (f.loc.cat (decimal i)) = some b) :
    Kept k (x.register k store loc parts) := by
  intro f hf i hi b hb
  rcases List.mem_cons.1 hf with rfl | hf
  · exact hb
  · exact h f hf i hi b hb

/-- **One operation** that is `Isolating` keeps every chunk. -/
theorem Kept.step (hx : Kept k x) (hop : Isolating k x op) (hst : x.step k op = some y) : Kept k y := by
  cases op with
  | tobigfs name content =>
    simp only [FileSystem.step] at hst
    split at hst
    · cases hst
      refine kept_register fun f hf i hi b hb => ?_
      have hget := hx f hf i hi b hb
      have hsome : (f.held i).isSome := by rw [hb]; rfl
      rw [get_uploaded_of_ne fun i' hi' hj => ?_, hget]
      obtain ⟨hpart, hloc⟩ := hop i' hi'
      refine ⟨?_, ne_of_clear hpart hf hi hj.symm hsome⟩
      unfold partLoc
      split
      · next hlt =>
        -- a name that has been looked for is free
        rw [Nat.mod_eq_of_lt hlt] at hj
        have hfree : ¬ (x.store i').Exists (pick (x.store i') (newLoc x.store name)) := not_exists_pick
        rintro he
        rw [← he, hj, Store.Exists, hget] at hfree
        exact hfree rfl
      · next hle => exact ne_of_clear (hloc (Nat.le_of_not_lt hle)) hf hi hj.symm hsome
    · cases hst
  | cp a =>
    obtain ⟨g, hg, hst⟩ := Option.bind_eq_some_iff.1 hst
    split at hst
    · cases hst
      refine kept_register fun f hf i hi b hb => ?_
      have hsome : (f.held i).isSome := by rw [hb]; rfl
      rw [get_copiedParts_of_ne fun i' hi' hj => ?_, hx f hf i hi b hb]
      obtain ⟨n, hn, -⟩ := firstFree_eq (x.store 0) g.loc
      refine ⟨?_, ne_of_clear (hop g hg i' hi') hf hi hj.symm hsome⟩
      rw [copyLoc, hn]
      exact (numbered_ne_chunk g.loc f.loc n i).symm
    · cases hst
  | rm a =>
    obtain ⟨g, hg, hst⟩ := Option.bind_eq_some_iff.1 hst
    split at hst
    · cases hst
      intro f hf i hi b hb
      have hsome : (f.held i).isSome := by rw [hb]; rfl
      rw [get_removed_of_ne fun i' hi' hj => ?_, hx f (List.mem_of_mem_eraseIdx hf) i hi b hb]
      obtain ⟨hloc, hchunk⟩ := hop g hg i' hi'
      exact ⟨ne_of_clear hloc hf hi hj.symm hsome, ne_of_clear hchunk hf hi hj.symm hsome⟩
    · cases hst

/-- **Files are isolated** in every run of operations that are `Isolating`. -/
theorem isolated {ops : List FileOp} (h : Run (FileSystem.step k) (Isolating k) .empty ops x) : Kept k x :=
  h.inv (Kept k) (fun _ hf => absurd hf List.not_mem_nil) fun _ _ _ hx hop hst => hx.step hop hst

end Step

/-- The files `x0` and `x`, which are empty, are stored on one server. -/
def stored₂ : List FileOp := [.tobigfs (lit "x0") [], .tobigfs (lit "x") []]

/-- Two files whose names do not differ by digits. -/
theorem isolated_two : ∃ x : FileSystem, x.live.length = 2 ∧ Kept 1 x := by
  let σ : ℕ → Store := uploaded 1 (fun _ => []) (lit "data/x") [] 1
  let x₁ : FileSystem := FileSystem.empty.register 1 σ (lit "data/x") 1
  have h₁ : Run (FileSystem.step 1) (Isolating 1) .empty [.tobigfs (lit "x") []] x₁ :=
    .snoc .nil (fun _ _ => ⟨fun _ h => absurd h List.not_mem_nil, fun _ _ h => absurd h List.not_mem_nil⟩) rfl
  have h₂ : Isolating 1 x₁ (.tobigfs (lit "y") []) := by
    intro i hi
    have hi0 : i = 0 := Nat.lt_one_iff.1 hi
    subst hi0
    refine ⟨fun f hf hat => ?_, fun hle => absurd hle (by decide)⟩
    obtain ⟨i', hi', -, -, hp⟩ := hat
    have hfx : f = ⟨lit "data/x", 1, _⟩ := List.mem_singleton.1 hf
    subst hfx
    have hi0 : i' = 0 := Nat.lt_one_iff.1 hi'
    subst hi0
    exact absurd hp (by decide)
  exact ⟨_, rfl, isolated (.snoc h₁ h₂ rfl)⟩

/-- **The claimed isolation does not hold**: `data/x0` is both the location of `x0` and the first chunk of `x`. -/
theorem not_isolated : ¬ ∀ k ops x, 0 < k → Run (FileSystem.step k) (fun _ _ => True) .empty ops x → Kept k x := by
  intro h
  have hrun : Run (FileSystem.step 1) (fun _ _ => True) .empty (stored₂ ++ [.rm 1]) _ :=
    run_of_runAll (p := fun _ _ => true) (fun _ _ _ => trivial) rfl
  have hk := h 1 _ _ one_pos hrun _ (List.mem_cons_self ..) 0 (by decide) [] rfl
  exact absurd hk (by decide)

/-! ### What the system does -/

section System

variable {c : Config} {t : ℕ} {x y : FileSystem}

/-- What the client does for an operation, once the name server has answered. -/
def FileOp.client (c : Config) (t : ℕ) (x : FileSystem) : FileOp → Client.Op
  | .tobigfs name _ => transfertoBigFS c t name
  | .cp a => x.live[a]?.elim (done t) fun f => copyChunks c t f.loc f.parts 0 0 (lit "")
  | .rm a => x.live[a]?.elim (done t) fun f => removeChunks c t f.loc f.parts 0 0

/-- What the name server has still to read of it, and then has in its memory. -/
def FileOp.name (x : FileSystem) (q : CStr → CStr → NameServer.Mem) : FileOp → NameServer.Op
  | .tobigfs _ _ => .read () fun parts => .read () fun loc => .ret (q parts loc)
  | .cp a => .read () fun loc => .ret (q (decimal (x.live[a]?.elim 0 File.parts : ℕ)) loc)
  | .rm _ => .ret (q (lit "") (lit ""))

/-- The operation is under way, and nothing else is. -/
def underway (c : Config) (t : ℕ) (x : FileSystem) (q : CStr → CStr → NameServer.Mem) (op : FileOp) : Conf where
  client := op.client c t x
  name := op.name x q
  store := x.store
  reply := []
  answers _ := []
  typed := []
  printed := []

/-- The client is back at the prompt, the data servers have the files `y`, and a new file is registered. -/
structure CarriedOut (t : ℕ) (q : CStr → CStr → NameServer.Mem) (op : FileOp) (y : FileSystem)
    (z : (bigfs c).State) : Prop where
  client : z.client = .ret (.prompt (t + 1))
  store : ∀ j, z.server (.data j) = .ret (y.store j)
  registered : (∀ a, op ≠ .rm a) → ∃ f ∈ y.live.head?, z.server .name = .ret (q (decimal f.parts) f.loc)

/-- **Every run of the system** carries out an operation as `FileSystem.step` says. -/
theorem step_ends (hk : 0 < c.no_of_dataservers) {op : FileOp} (hst : x.step c.no_of_dataservers op = some y)
    (hdisk : ∀ name content, op = .tobigfs name content →
      ∃ file, c.disk t name = some file ∧ readable c file = content ∧ partsOf file = partsOf content)
    (q : CStr → CStr → NameServer.Mem) :
    AlwaysEnds Star.step ((underway c t x q op).state c) (CarriedOut (c := c) t q op y) := by
  have hend (mem : NameServer.Mem) (σ : ℕ → Store) : Ended (Star.step (S := bigfs c)) (Conf.state c
      { underway c t x q op with client := done t, name := .ret mem, store := σ }) :=
    ended_state rfl rfl rfl rfl rfl
  cases op with
  | tobigfs name content =>
    simp only [FileSystem.step] at hst
    split at hst
    · next h =>
      cases hst
      obtain ⟨file, hfile, rfl, hparts⟩ := hdisk name content rfl
      have hg := goes_uploaded (f := underway c t x q (.tobigfs name (readable c file))) hk h.1 hfile h.2.1
        (hparts ▸ h.2.2) rfl rfl rfl rfl
      rw [hparts] at hg
      exact (Star.step_comm.alwaysEnds_iff hg (hend _ _)).2 ⟨rfl, fun _ => rfl, fun _ => ⟨_, rfl, rfl⟩⟩
    · cases hst
  | cp a =>
    obtain ⟨g, hg, hst⟩ := Option.bind_eq_some_iff.1 hst
    split at hst
    · next h =>
      cases hst
      have hclient : (underway c t x q (.cp a)).client = copyChunks c t g.loc g.parts 0 0 (lit "") := by
        show x.live[a]?.elim _ _ = _
        rw [hg]
        rfl
      have hname : (underway c t x q (.cp a)).name = .read () fun loc => .ret (q (decimal g.parts) loc) := by
        show Proc.read () _ = _
        rw [hg]
        rfl
      have hg := goes_copied (f := underway c t x q (.cp a)) hk h.1 h.2.1 h.2.2 hname hclient rfl rfl
      exact (Star.step_comm.alwaysEnds_iff hg (hend _ _)).2 ⟨rfl, fun _ => rfl, fun _ => ⟨_, rfl, rfl⟩⟩
    · cases hst
  | rm a =>
    obtain ⟨g, hg, hst⟩ := Option.bind_eq_some_iff.1 hst
    split at hst
    · next h =>
      cases hst
      have hclient : (underway c t x q (.rm a)).client = removeChunks c t g.loc g.parts 0 0 := by
        show x.live[a]?.elim _ _ = _
        rw [hg]
        rfl
      have hg := goes_removed (f := underway c t x q (.rm a)) (σ := x.store) (n := g.parts) (i := 0) hk (by omega) rfl
        (by rw [hclient, Nat.zero_mod]) rfl
      exact (Star.step_comm.alwaysEnds_iff hg (hend _ _)).2
        ⟨rfl, fun _ => by simp [Conf.state, Conf.server], fun h => absurd rfl (h a)⟩
    · cases hst

end System

end NetProg.BigFs
