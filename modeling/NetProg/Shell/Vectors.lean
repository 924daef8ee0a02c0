import NetProg.Shell.Argv
import NetProg.Shell.Tokens

/-!
# Counting and extracting tokens

`getcommand` counts the tokens of a line, and `getargv` reads them a second time, into a vector of that many entries and
one more.  `none` stands for a fault: a string that does not fit its buffer, a NULL that is used as a string, a store
behind the end of the vector.

`getargv_agrees`: there is no fault, and the vector holds the tokens; a last `&` is left out and counts as the flag.
-/

namespace NetProg.Shell

open NetProg.Lib

/-- `nextToken(str, &parser)`, which leaves `parser` as it is when it returns NULL. -/
def next (str : CStr) (parser : ℕ) : Option CStr × ℕ :=
  match nextToken str parser with
  | none => (none, parser)
  | some (t, point) => (some t, point)

/-- The loop of `getcommand`. -/
def getcommand.loop (buf2 : CStr) : ℕ → Option CStr × ℕ → ℕ → Option ℕ
  | 0, _, _ => none
  | fuel + 1, (firstarg, parser), noofargs =>
    match firstarg with
    | none => some noofargs
    | some _ => getcommand.loop buf2 fuel (next buf2 parser) (noofargs + 1)

/-- The command and the new `*noofargs`. -/
def getcommand (fuel : ℕ) (buf : CStr) (noofargs : ℕ) : Option (Option CStr × ℕ) :=
  if buf.bytes.length < MAX_SIZE then
    (getcommand.loop buf fuel (next buf 0) noofargs).map fun n => ((next buf 0).1, n)
  else none

/-- `v[i] = x` -/
def store (v : Argv) (i : ℕ) (x : Option CStr) : Option Argv := if i < v.length then some (v.set i x) else none

/-- The variables of `getargv`. -/
structure Extraction where
  i : ℕ
  nofargs : ℕ
  back_pr : Bool
  v : Argv
  token : Option CStr × ℕ

/-- The loop of `getargv`. -/
def getargv.loop (buf : CStr) : ℕ → Extraction → Option Extraction
  | 0, _ => none
  | fuel + 1, s =>
    if s.i < s.nofargs then
      match s.token.1 with
      | none => none
      | some firstarg =>
        if firstarg = lit "&" ∧ s.i = s.nofargs - 1 then some { s with back_pr := true, nofargs := s.nofargs - 1 }
        else if firstarg.bytes.length < MAX_SIZE then
          (store s.v s.i (some firstarg)).bind fun v =>
            getargv.loop buf fuel { s with v := v, i := s.i + 1, token := next buf s.token.2 }
        else none
    else some s

/-- What `malloc` gives for `n` entries. -/
def malloc (garbage : ℕ → Option CStr) (n : ℕ) : Argv := (List.range n).map garbage

/-- The entries of the vector, the new `*nofargs` and the new `*back_pr`. -/
def getargv (fuel : ℕ) (garbage : ℕ → Option CStr) (buff : CStr) (nofargs : ℕ) (back_pr : Bool) :
    Option (Argv × ℕ × Bool) :=
  if buff.bytes.length < MAX_SIZE then
    (getargv.loop buff fuel ⟨0, nofargs, back_pr, malloc garbage (nofargs + 1), next buff 0⟩).bind fun s =>
      (store s.v s.nofargs none).map fun v => (v, s.nofargs, s.back_pr)
  else none

/-! ### The tokens ahead -/

/-- The token read last and those that further calls return. -/
def Ahead (str : CStr) : Option CStr × ℕ → List CStr → Prop
  | c, [] => c.1 = none
  | c, t :: ts => c.1 = some t ∧ Ahead str (next str c.2) ts

section Vectors

variable {str t : CStr} {point n : ℕ} {c : Option CStr × ℕ} {l : List (CStr × ℕ)} {ts : List CStr} {v : Argv}

theorem Scan.ahead (h : Scan str point l) : Ahead str (next str point) (l.map Prod.fst) := by
  induction h with
  | null h => simp [Ahead, next, h]
  | token h _ ih => simpa [Ahead, next, h] using ih

theorem getcommand_loop {fuel : ℕ} (h : Ahead str c ts) (hfuel : ts.length < fuel) :
    getcommand.loop str fuel c n = some (n + ts.length) := by
  induction ts generalizing c n fuel with
  | nil =>
    obtain ⟨fuel, rfl⟩ := Nat.exists_eq_add_of_lt hfuel
    have hnull : c.1 = none := h
    simp [getcommand.loop, hnull]
  | cons t ts ih =>
    obtain ⟨firstarg, parser⟩ := c
    obtain ⟨rfl, hrest⟩ := h
    rw [List.length_cons] at hfuel ⊢
    obtain ⟨fuel, rfl⟩ := Nat.exists_eq_add_of_lt hfuel
    rw [getcommand.loop, ih hrest (by omega)]
    congr 1
    omega

/-- The arguments: a last `&` is none of them. -/
def kept (ts : List CStr) : List CStr := if ts.getLast? = some (lit "&") then ts.dropLast else ts

/-- A vector with entries stored from `i` on. -/
def put (v : Argv) (i : ℕ) (xs : Argv) : Argv := v.take i ++ (xs ++ v.drop (i + xs.length))

theorem put_nil (v : Argv) (i : ℕ) : put v i [] = v := by
  simp [put]

theorem put_cons {i : ℕ} {x : Option CStr} {xs : Argv} (h : i < v.length) : put v i (x :: xs) = put (v.set i x) (i + 1) xs := by
  have htake : (v.set i x).take (i + 1) = v.take i ++ [x] := by
    rw [List.take_succ_eq_append_getElem (by simpa using h), List.take_set_of_le le_rfl]
    simp
  have hdrop : (v.set i x).drop (i + 1 + xs.length) = v.drop (i + (xs.length + 1)) := by
    rw [List.drop_set_of_lt (by omega)]
    congr 1
    omega
  simp [put, htake, hdrop]

theorem store_eq {i : ℕ} {x : Option CStr} (h : i < v.length) : store v i x = some (v.set i x) := if_pos h

/-- A token that is not a last `&` is an argument. -/
theorem kept_cons (h : ¬ (t = lit "&" ∧ ts = [])) :
    kept (t :: ts) = t :: kept ts ∧ ((t :: ts).getLast? = some (lit "&") ↔ ts.getLast? = some (lit "&")) := by
  unfold kept
  cases ts with
  | nil =>
    have hne : t ≠ lit "&" := fun ht => h ⟨ht, rfl⟩
    simp [hne]
  | cons t' ts =>
    rw [List.getLast?_cons_cons]
    refine ⟨?_, Iff.rfl⟩
    split <;> rfl

/-- **The loop stores the arguments**, and finds the `&` only in the last place. -/
theorem getargv_loop (hts : ∀ t ∈ ts, t.bytes.length < MAX_SIZE) {s : Extraction} (h : Ahead str s.token ts)
    (hi : s.i + ts.length = s.nofargs) (hv : s.nofargs < s.v.length) : ∃ s', getargv.loop str (ts.length + 1) s = some s' ∧
    s'.v = put s.v s.i (words (kept ts)) ∧ s'.nofargs = s.i + (kept ts).length ∧
    s'.back_pr = (s.back_pr || decide (ts.getLast? = some (lit "&"))) := by
  induction ts generalizing s with
  | nil =>
    have hnot : ¬ s.i < s.nofargs := by
      simp at hi
      omega
    refine ⟨s, by simp [getargv.loop, hnot], (put_nil _ _).symm, ?_, by simp⟩
    simpa [kept] using hi.symm
  | cons t ts ih =>
    obtain ⟨htok, hrest⟩ := h
    have hlt : s.i < s.nofargs := by
      simp at hi
      omega
    rw [List.length_cons, getargv.loop, if_pos hlt, htok]
    dsimp only
    split_ifs with hamp hfits
    · obtain ⟨rfl, hlast⟩ := hamp
      obtain rfl : ts = [] := by
        apply List.eq_nil_of_length_eq_zero
        simp at hi
        omega
      refine ⟨_, rfl, (put_nil _ _).symm, ?_, by simp⟩
      simp [kept]
      omega
    · have hstore : store s.v s.i (some t) = some (s.v.set s.i (some t)) := store_eq (by omega)
      rw [hstore, Option.bind_some]
      obtain ⟨hkept, hlast⟩ := @kept_cons t ts fun h => hamp ⟨h.1, by simp [h.2] at hi; omega⟩
      obtain ⟨s', hs', hv', hn', hb'⟩ := ih (fun t ht => hts t (List.mem_cons_of_mem _ ht))
        (s := { s with v := s.v.set s.i (some t), i := s.i + 1, token := next str s.token.2 }) hrest
        (by simp at hi ⊢; omega) (by simpa using hv)
      refine ⟨s', hs', ?_, ?_, ?_⟩
      · rw [hkept, words, List.map_cons, put_cons (by omega)]
        exact hv'
      · rw [hkept, List.length_cons, hn']
        show s.i + 1 + _ = _
        omega
      · rw [hb', decide_eq_decide.2 hlast]
    · exact absurd (hts t (by simp)) hfits

/-- The arguments of a line, with the NULL behind them and the flag. -/
structure Extracted (ts : List CStr) (back_pr : Bool) (r : Argv × ℕ × Bool) : Prop where
  length : r.1.length = ts.length + 1
  nofargs : r.2.1 = (kept ts).length
  entries : r.1.take (r.2.1 + 1) = words (kept ts) ++ [none]
  flag : r.2.2 = (back_pr || decide (ts.getLast? = some (lit "&")))

theorem length_kept_le (ts : List CStr) : (kept ts).length ≤ ts.length := by
  unfold kept
  split
  · simp
  · exact le_rfl

theorem length_put {i : ℕ} {xs : Argv} (h : i + xs.length ≤ v.length) : (put v i xs).length = v.length := by
  simp [put]
  omega

theorem getargv_extracted (garbage : ℕ → Option CStr) (back_pr : Bool) (hstr : str.bytes.length < MAX_SIZE)
    (hts : ∀ t ∈ ts, t.bytes.length < MAX_SIZE) (h : Ahead str (next str 0) ts) :
    ∃ r, getargv (ts.length + 1) garbage str ts.length back_pr = some r ∧ Extracted ts back_pr r := by
  have hmalloc : (malloc garbage (ts.length + 1)).length = ts.length + 1 := by simp [malloc]
  obtain ⟨s, hs, hv, hn, hb⟩ := getargv_loop hts
    (s := ⟨0, ts.length, back_pr, malloc garbage (ts.length + 1), next str 0⟩) h (Nat.zero_add _) (by simp [hmalloc])
  have hkept := length_kept_le ts
  rw [Nat.zero_add] at hn
  have hlen : s.v.length = ts.length + 1 := by
    rw [hv, length_put, hmalloc]
    simp [hmalloc]
    omega
  refine ⟨(s.v.set s.nofargs none, s.nofargs, s.back_pr), ?_, by simpa using hlen, hn, ?_, hb⟩
  · unfold getargv
    rw [if_pos hstr, hs, Option.bind_some, store_eq (by omega)]
    rfl
  · have htake : s.v.take s.nofargs = words (kept ts) := by
      rw [hv, hn, put]
      simp
    show (s.v.set s.nofargs none).take (s.nofargs + 1) = _
    rw [List.take_succ_eq_append_getElem (by simp; omega), List.take_set_of_le le_rfl, htake]
    simp

/-- **The two passes agree.**  A line with tokens has its first token as its command, and they are counted; with that count
`getargv` stores the tokens and a NULL behind them, without a fault.  A last `&` becomes the flag, any other is kept. -/
theorem getargv_agrees (garbage : ℕ → Option CStr) (back_pr : Bool) (hstr : str.bytes.length < MAX_SIZE)
    (hl : ∃ fuel, calls str fuel 0 = some l) (hne : l ≠ []) : ∃ fuel,
    getcommand fuel str 0 = some ((l.map Prod.fst).head?, l.length) ∧
    ∃ r, getargv fuel garbage str l.length back_pr = some r ∧ Extracted (l.map Prod.fst) back_pr r := by
  obtain ⟨fuel, hcalls⟩ := hl
  have hscan := scan_of_calls hcalls
  have hahead := hscan.ahead
  have hts : ∀ t ∈ l.map Prod.fst, t.bytes.length < MAX_SIZE := hscan.tokens_fit hstr
  refine ⟨l.length + 1, ?_, ?_⟩
  · have hhead : (next str 0).1 = (l.map Prod.fst).head? := by
      obtain ⟨c, l, rfl⟩ := List.exists_cons_of_ne_nil hne
      exact hahead.1
    have hloop : getcommand.loop str (l.length + 1) (next str 0) 0 = _ :=
      getcommand_loop hahead (by rw [List.length_map]; omega)
    rw [List.length_map, Nat.zero_add] at hloop
    rw [getcommand, if_pos hstr, hloop, hhead]
    rfl
  · have := getargv_extracted garbage back_pr hstr hts hahead
    rwa [List.length_map] at this

/-- Only the second `&` of the line is the flag. -/
theorem getargv_agrees_background : ∃ fuel, getcommand fuel (lit "ls & -l &") 0 = some (some (lit "ls"), 4) ∧
    ∃ r, getargv fuel (fun _ => none) (lit "ls & -l &") 4 false = some r ∧
      Extracted (["ls", "&", "-l", "&"].map lit) false r :=
  getargv_agrees (l := [(lit "ls", 2), (lit "&", 4), (lit "-l", 7), (lit "&", 9)]) (fun _ => none) false (by decide)
    ⟨5, by decide⟩ (by decide)

end Vectors

end NetProg.Shell
