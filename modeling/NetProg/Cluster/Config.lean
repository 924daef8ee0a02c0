import NetProg.Cluster.Arguments
import NetProg.Lib.Decimal
import NetProg.Lib.Gets

/-!
# The list of the nodes

Client and server read the same file: the number of nodes, and a line with the name and the address of each.  Two loops
copy the two parts of a line into arrays of a fixed size.

`config_exact`: both programs get back the list that the file was written from.
-/

namespace NetProg.Cluster

open NetProg.Lib

/-- The sizes of `name`, `ip` and `temp1`. -/
def nameSize : ℕ := 10
def ipSize : ℕ := 20
def lineSize : ℕ := 255

/-- `node`; that of the server has no `active`. -/
structure Entry where
  name : Vector Byte nameSize
  ip : Vector Byte ipSize
  active : ℤ

/-! ### The programs -/

/-- `fscanf(fp, "%d\n", &n)`, for a number without a sign. -/
def fscanf (file : List Byte) : ℕ × List Byte :=
  let file := file.dropWhile isSpace
  (readDigits 0 file, (file.dropWhile isDigit).dropWhile isSpace)

/-- `fgets(temp1, sizeof(temp1), fp)` -/
def fgets (temp1 : Vector Byte lineSize) (file : List Byte) : Vector Byte lineSize × List Byte :=
  let got := gets (lineSize - 1) file
  (if got.piece = [] then temp1 else Slots.fill temp1 (got.piece ++ [0]), got.rest)

/-- A loop that copies from `temp1[ptr]` on to `field[j]` and the places behind it, up to a byte where it stops. -/
def copyLoop {k : ℕ} (stop : Byte → Bool) (temp1 : Vector Byte lineSize) :
    ℕ → ℕ → ℕ → Vector Byte k → Except Fault (ℕ × ℕ × Vector Byte k)
  | 0, _, _, _ => .error .fuel
  | fuel + 1, ptr, j, field => do
    let b ← Slots.load .bounds temp1 ptr
    if stop b then .ok (ptr, j, field)
    else do
      let field ← Slots.store .bounds field j b
      copyLoop stop temp1 fuel (ptr + 1) (j + 1) field

/-- The two loops over a line; the first one has one index for both arrays. -/
def scanLine (temp1 : Vector Byte lineSize) (entry : Entry) : Except Fault Entry := do
  let (ptr, _, name) ← copyLoop (· = space) temp1 (lineSize + 1) 0 0 entry.name
  let name ← Slots.store .bounds name ptr 0
  let (_, j, ip) ← copyLoop (fun b => b = 0 ∨ b = newline) temp1 (lineSize + 1) (ptr + 1) 0 entry.ip
  let ip ← Slots.store .bounds ip j 0
  .ok { entry with name := name, ip := ip }

/-- The loop over the nodes: `k` more of them from `list[i]` on, which `malloc` has left as it is. -/
def nodesLoop (reset : Entry → Entry) (list : ℕ → Entry) :
    ℕ → ℕ → Vector Byte lineSize → List Byte → Except Fault (List Entry)
  | 0, _, _, _ => .ok []
  | k + 1, i, temp1, file => do
    let (temp1, file) := fgets temp1 file
    let entry ← scanLine temp1 (reset (list i))
    let entries ← nodesLoop reset list k (i + 1) temp1 file
    .ok (entry :: entries)

/-- The client. -/
def clientConfig (file : List Byte) (temp1 : Vector Byte lineSize) (list : ℕ → Entry) : Except Fault (List Entry) :=
  let (n, file) := fscanf file
  nodesLoop (fun entry => { entry with active := 0 }) list n 0 temp1 file

/-- The server. -/
def serverConfig (file : List Byte) (temp1 : Vector Byte lineSize) (list : ℕ → Entry) : Except Fault (List Entry) :=
  let (n, file) := fscanf file
  nodesLoop (fun entry => { entry with ip := Vector.replicate ipSize 0 }) list n 0 temp1 file

/-! ### The file -/

/-- An address that is on one line and fits its field. -/
structure Address where
  str : CStr
  line : newline ∉ str.bytes
  short : str.bytes.length < ipSize

/-- A node as it is written down. -/
structure NodeLine where
  name : Word nameSize
  ip : Address

def NodeLine.text (nd : NodeLine) : List Byte := nd.name.str.bytes ++ space :: nd.ip.str.bytes

/-- The lines of the file, the last of them with a newline or without. -/
def configFile (final : Bool) (nodes : List NodeLine) : List Byte :=
  [newline].intercalate (decBytes nodes.length :: nodes.map NodeLine.text) ++ if final then [newline] else []

/-- The strings in a node that has been read. -/
def Entry.strings (entry : Entry) : CStr × CStr := (CStr.ofBytes entry.name.toList, CStr.ofBytes entry.ip.toList)

/-- What a node should be read as. -/
def NodeLine.strings (nd : NodeLine) : CStr × CStr := (nd.name.str, nd.ip.str)

section Config

variable {k fuel : ℕ} {stop : Byte → Bool} {temp1 : Vector Byte lineSize} {field : Vector Byte k} {pre d l : List Byte}
  {c : Byte} {nd : NodeLine} {nodes : List NodeLine}

/-! ### One line -/

/-- **A loop over a part of a line** copies it behind what is there and stays inside both arrays. -/
theorem copyLoop_eq_ok (hsrc : pre ++ l ++ [c] <+: temp1.toList) (hl : ∀ b ∈ l, stop b = false) (hc : stop c = true)
    (hfield : d <+: field.toList) (hk : d.length + l.length ≤ k) (hfuel : l.length < fuel) :
    ∃ field', copyLoop stop temp1 fuel pre.length d.length field =
      .ok (pre.length + l.length, d.length + l.length, field') ∧ d ++ l <+: field'.toList := by
  induction l generalizing pre d field fuel with
  | nil =>
    obtain ⟨fuel, rfl⟩ := Nat.exists_eq_add_of_lt hfuel
    have hload : Slots.load Fault.bounds temp1 pre.length = .ok c := by
      rw [Slots.load_of_prefix hsrc (by simp)]
      simp
    refine ⟨field, ?_, by rwa [List.append_nil]⟩
    rw [copyLoop, hload]
    show (if stop c then _ else _) = _
    rw [if_pos hc]
    rfl
  | cons b l ih =>
    obtain ⟨fuel, rfl⟩ := Nat.exists_eq_add_of_lt hfuel
    rw [List.length_cons] at hk
    have hload : Slots.load Fault.bounds temp1 pre.length = .ok b := by
      rw [Slots.load_of_prefix hsrc (by simp)]
      simp
    have hstore : Slots.store Fault.bounds field d.length b = .ok (field.set d.length b (by omega)) :=
      Slots.store_of_lt _
    have hsrc' : (pre ++ [b]) ++ l ++ [c] <+: temp1.toList := by simpa using hsrc
    have hlen : (pre ++ [b]).length = pre.length + 1 := List.length_append
    have hlen' : (d ++ [b]).length = d.length + 1 := List.length_append
    obtain ⟨field', hloop, hcopied⟩ := ih hsrc' (fun x hx => hl x (List.mem_cons_of_mem _ hx))
      (Slots.prefix_store hfield hstore) (by omega) (show l.length < (b :: l).length + fuel by rw [List.length_cons]; omega)
    rw [hlen, hlen'] at hloop
    refine ⟨field', ?_, by simpa using hcopied⟩
    rw [copyLoop, hload]
    show (if stop b then _ else Slots.store Fault.bounds field d.length b >>= _) = _
    rw [if_neg (by rw [hl b List.mem_cons_self]; exact Bool.false_ne_true), hstore]
    show copyLoop stop temp1 _ (pre.length + 1) (d.length + 1) _ = _
    rw [hloop, List.length_cons, Nat.add_right_comm, Nat.add_right_comm d.length]
    rfl

/-- A string with its NUL at the front of a field. -/
theorem ofBytes_of_stored {s : CStr} (h : s.bytes ++ [0] <+: field.toList) : CStr.ofBytes field.toList = s := by
  obtain ⟨r, hr⟩ := h
  rw [← hr]
  exact CStr.ofBytes_z_append s r

theorem NodeLine.space_not_mem (nd : NodeLine) : space ∉ nd.name.str.bytes := by
  intro h
  have hsolid := nd.name.solid space h
  exact absurd hsolid (by decide)

/-- A line is read as the node that it was written from. -/
theorem scanLine_eq_ok (entry : Entry) (hsrc : nd.text ++ [c] <+: temp1.toList) (hc : c = 0 ∨ c = newline) :
    ∃ entry', scanLine temp1 entry = .ok entry' ∧ entry'.strings = nd.strings ∧ entry'.active = entry.active := by
  have hname : nd.name.str.bytes.length < 10 := nd.name.short
  have hip : nd.ip.str.bytes.length < 20 := nd.ip.short
  -- the name, up to the space
  have hsrc₁ : [] ++ nd.name.str.bytes ++ [space] <+: temp1.toList := by
    refine List.IsPrefix.trans ⟨nd.ip.str.bytes ++ [c], ?_⟩ hsrc
    simp [NodeLine.text]
  have hsolid : ∀ b ∈ nd.name.str.bytes, decide (b = space) = false := fun b hb =>
    decide_eq_false fun he => nd.space_not_mem (he ▸ hb)
  obtain ⟨name, hloop₁, hcopied₁⟩ := copyLoop_eq_ok hsrc₁ hsolid (by simp) (List.nil_prefix : [] <+: entry.name.toList)
    (by rw [List.length_nil]; show _ ≤ 10; omega) (show _ < lineSize + 1 by show _ < 256; omega)
  rw [List.nil_append] at hcopied₁
  rw [List.length_nil, Nat.zero_add] at hloop₁
  have hstore₁ : Slots.store Fault.bounds name nd.name.str.bytes.length 0 =
      .ok (name.set nd.name.str.bytes.length 0 nd.name.short) := Slots.store_of_lt _
  -- the address, up to the end of the line
  have hsrc₂ : (nd.name.str.bytes ++ [space]) ++ nd.ip.str.bytes ++ [c] <+: temp1.toList := by
    simpa [NodeLine.text] using hsrc
  have hline : ∀ b ∈ nd.ip.str.bytes, decide (b = 0 ∨ b = newline) = false := by
    intro b hb
    apply decide_eq_false
    rintro (rfl | rfl)
    · exact nd.ip.str.nul_free hb
    · exact nd.ip.line hb
  obtain ⟨ip, hloop₂, hcopied₂⟩ := copyLoop_eq_ok hsrc₂ hline (by simpa using hc) (List.nil_prefix : [] <+: entry.ip.toList)
    (by rw [List.length_nil]; show _ ≤ 20; omega) (show _ < lineSize + 1 by show _ < 256; omega)
  rw [List.nil_append] at hcopied₂
  rw [List.length_append, List.length_singleton, List.length_nil, Nat.zero_add] at hloop₂
  have hstore₂ : Slots.store Fault.bounds ip nd.ip.str.bytes.length 0 =
      .ok (ip.set nd.ip.str.bytes.length 0 nd.ip.short) := Slots.store_of_lt _
  refine ⟨{ entry with name := name.set _ 0 nd.name.short, ip := ip.set _ 0 nd.ip.short }, ?_, ?_, rfl⟩
  · simp only [scanLine, hloop₁, hstore₁, hloop₂, hstore₂, bind, Except.bind]
  · exact Prod.ext (ofBytes_of_stored (Slots.prefix_store hcopied₁ hstore₁))
      (ofBytes_of_stored (Slots.prefix_store hcopied₂ hstore₂))

/-! ### All lines -/

/-- The lines behind the number. -/
def body (final : Bool) (nodes : List NodeLine) : List Byte :=
  [newline].intercalate (nodes.map NodeLine.text) ++ if final then [newline] else []

theorem NodeLine.newline_not_mem (nd : NodeLine) : newline ∉ nd.text := by
  intro h
  rcases List.mem_append.1 h with h | h
  · have hsolid := nd.name.solid newline h
    exact absurd hsolid (by decide)
  · rcases List.mem_cons.1 h with h | h
    · exact absurd h (by decide)
    · exact nd.ip.line h

theorem NodeLine.length_text_lt (nd : NodeLine) : nd.text.length < lineSize - 1 := by
  have hname : nd.name.str.bytes.length < 10 := nd.name.short
  have hip : nd.ip.str.bytes.length < 20 := nd.ip.short
  rw [NodeLine.text, List.length_append, List.length_cons]
  show _ < 254
  omega

theorem body_cons_cons (final : Bool) (nd nd' : NodeLine) (nodes : List NodeLine) :
    body final (nd :: nd' :: nodes) = nd.text ++ newline :: body final (nd' :: nodes) := by
  simp [body, List.intercalate]

theorem body_singleton (final : Bool) (nd : NodeLine) : body final [nd] = nd.text ++ if final then [newline] else [] := by
  simp [body, List.intercalate]

/-- A line with its newline is in `temp1` with a NUL behind it. -/
theorem fgets_line (nd : NodeLine) (temp1 : Vector Byte lineSize) (rest : List Byte) :
    fgets temp1 (nd.text ++ newline :: rest) = (Slots.fill temp1 (nd.text ++ [newline] ++ [0]), rest) := by
  have hne : nd.text ++ [newline] ≠ [] := by simp
  rw [fgets, gets_line nd.newline_not_mem nd.length_text_lt]
  show (if nd.text ++ [newline] = [] then temp1 else _, rest) = _
  rw [if_neg hne]

theorem fgets_last (nd : NodeLine) (temp1 : Vector Byte lineSize) :
    fgets temp1 nd.text = (Slots.fill temp1 (nd.text ++ [0]), []) := by
  have hne : nd.text ≠ [] := by simp [NodeLine.text]
  rw [fgets, gets_last nd.newline_not_mem nd.length_text_lt]
  show (if nd.text = [] then temp1 else _, []) = _
  rw [if_neg hne]

/-- A call of `fgets` puts the next line into `temp1`. -/
theorem fgets_body (final : Bool) (nd : NodeLine) (nodes : List NodeLine) (temp1 : Vector Byte lineSize) :
    ∃ temp1' c, (c = 0 ∨ c = newline) ∧ nd.text ++ [c] <+: temp1'.toList ∧
      fgets temp1 (body final (nd :: nodes)) = (temp1', if nodes = [] then [] else body final nodes) := by
  have hlen := nd.length_text_lt
  have hfull : nd.text ++ [newline] <+: (Slots.fill temp1 (nd.text ++ [newline] ++ [0])).toList := by
    refine List.IsPrefix.trans (List.prefix_append _ [0]) (Slots.prefix_fill ?_)
    rw [List.length_append, List.length_append, List.length_singleton, List.length_singleton]
    show _ ≤ 255
    have hlt : nd.text.length < 254 := hlen
    omega
  cases nodes with
  | nil =>
    rw [body_singleton, if_pos rfl]
    cases final with
    | true => exact ⟨_, newline, .inr rfl, hfull, fgets_line nd temp1 []⟩
    | false =>
      refine ⟨Slots.fill temp1 (nd.text ++ [0]), 0, .inl rfl, Slots.prefix_fill ?_, ?_⟩
      · rw [List.length_append, List.length_singleton]
        show _ ≤ 255
        have hlt : nd.text.length < 254 := hlen
        omega
      · show fgets temp1 (nd.text ++ []) = _
        rw [List.append_nil]
        exact fgets_last nd temp1
  | cons nd' nodes =>
    rw [body_cons_cons, if_neg (List.cons_ne_nil _ _)]
    exact ⟨_, newline, .inr rfl, hfull, fgets_line nd temp1 _⟩

theorem nodesLoop_eq_ok (reset : Entry → Entry) (list : ℕ → Entry) (final : Bool) (nodes : List NodeLine) (i : ℕ)
    (temp1 : Vector Byte lineSize) : ∃ entries,
      nodesLoop reset list nodes.length i temp1 (if nodes = [] then [] else body final nodes) = .ok entries ∧
      entries.map Entry.strings = nodes.map NodeLine.strings ∧
      ∀ entry ∈ entries, ∃ j, entry.active = (reset (list j)).active := by
  induction nodes generalizing i temp1 with
  | nil => exact ⟨[], rfl, rfl, fun _ h => absurd h List.not_mem_nil⟩
  | cons nd nodes ih =>
    obtain ⟨temp1', c, hc, hline, hfgets⟩ := fgets_body final nd nodes temp1
    obtain ⟨entry, hscan, hstrings, hactive⟩ := scanLine_eq_ok (reset (list i)) hline hc
    obtain ⟨entries, hloop, hall, hreset⟩ := ih (i + 1) temp1'
    refine ⟨entry :: entries, ?_, ?_, ?_⟩
    · rw [if_neg (List.cons_ne_nil _ _)]
      simp only [nodesLoop, List.length_cons, hfgets, hscan, hloop, bind, Except.bind]
    · rw [List.map_cons, List.map_cons, hstrings, hall]
    · intro e he
      rcases List.mem_cons.1 he with rfl | he
      · exact ⟨i, hactive⟩
      · exact hreset e he

/-- The number is read up to a byte that is no digit, and the white space behind it is skipped. -/
theorem fscanf_decBytes (n : ℕ) (rest : List Byte) : fscanf (decBytes n ++ newline :: rest) = (n, rest.dropWhile isSpace) := by
  have hdigits : ∀ b ∈ decBytes n, isDigit b = true := fun b hb => isDigit_of_mem_digits hb
  have hskip : (decBytes n ++ newline :: rest).dropWhile isSpace = decBytes n ++ newline :: rest := by
    obtain ⟨b, l, he⟩ := List.exists_cons_of_ne_nil (decBytes_ne_nil n)
    have hb : ¬ isSpace b = true := by
      rw [isSpace_of_isDigit (hdigits b (he ▸ List.mem_cons_self))]
      exact Bool.false_ne_true
    rw [he, List.cons_append, List.dropWhile_cons_of_neg hb]
  have hvalue : readDigits 0 (decBytes n ++ newline :: rest) = n := by
    rw [readDigits_append _ _ _ hdigits, decBytes, readDigits_digits (Nat.lt_succ_self n)]
    rfl
  have hbehind : (decBytes n ++ newline :: rest).dropWhile isDigit = newline :: rest := by
    rw [List.dropWhile_append_of_pos hdigits, List.dropWhile_cons_of_neg (by decide)]
  rw [fscanf, hskip, hvalue, hbehind, List.dropWhile_cons_of_pos (by decide)]

/-- The names have no white space in front. -/
theorem dropWhile_body (final : Bool) (nd : NodeLine) (nodes : List NodeLine) :
    (body final (nd :: nodes)).dropWhile isSpace = body final (nd :: nodes) := by
  obtain ⟨b, l, he⟩ := List.exists_cons_of_ne_nil nd.name.nonempty
  have hb : ¬ isSpace b = true := by
    rw [nd.name.solid b (he ▸ List.mem_cons_self)]
    exact Bool.false_ne_true
  have hbody : ∃ r, body final (nd :: nodes) = b :: r := by
    cases nodes with
    | nil => exact ⟨_, by rw [body_singleton, NodeLine.text, he]; rfl⟩
    | cons nd' nodes => exact ⟨_, by rw [body_cons_cons, NodeLine.text, he]; rfl⟩
  obtain ⟨r, hr⟩ := hbody
  rw [hr, List.dropWhile_cons_of_neg hb]

/-- The number, and the lines behind it. -/
theorem fscanf_configFile (final : Bool) (nodes : List NodeLine) :
    fscanf (configFile final nodes) = (nodes.length, if nodes = [] then [] else body final nodes) := by
  cases nodes with
  | nil =>
    cases final with
    | true => rfl
    | false => rfl
  | cons nd nodes =>
    have hfile : configFile final (nd :: nodes) =
        decBytes (nd :: nodes).length ++ newline :: body final (nd :: nodes) := by
      simp [configFile, body, List.intercalate]
    rw [hfile, fscanf_decBytes, dropWhile_body, if_neg (List.cons_ne_nil _ _)]

/-- **Reading the file** gives back the nodes that it was written from, in the client, where no node is active yet, and in
the server. -/
theorem config_exact (final : Bool) (nodes : List NodeLine) (temp1 : Vector Byte lineSize) (list list' : ℕ → Entry) :
    ∃ client server, clientConfig (configFile final nodes) temp1 list = .ok client ∧
      serverConfig (configFile final nodes) temp1 list' = .ok server ∧
      client.map Entry.strings = nodes.map NodeLine.strings ∧ server.map Entry.strings = nodes.map NodeLine.strings ∧
      ∀ entry ∈ client, entry.active = 0 := by
  obtain ⟨client, hclient, hstrings, hactive⟩ :=
    nodesLoop_eq_ok (fun entry => { entry with active := 0 }) list final nodes 0 temp1
  obtain ⟨server, hserver, hstrings', -⟩ :=
    nodesLoop_eq_ok (fun entry => { entry with ip := Vector.replicate ipSize 0 }) list' final nodes 0 temp1
  refine ⟨client, server, ?_, ?_, hstrings, hstrings', fun entry hentry => ?_⟩
  · rw [clientConfig, fscanf_configFile]
    exact hclient
  · rw [serverConfig, fscanf_configFile]
    exact hserver
  · obtain ⟨_, hzero⟩ := hactive entry hentry
    exact hzero

end Config

end NetProg.Cluster
