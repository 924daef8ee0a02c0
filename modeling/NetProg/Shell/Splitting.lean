import NetProg.Shell.Argv

/-!
# How the shell cuts a vector into segments

`pipecommand`, `shmPipe` and `messageQueuePipe` cut a vector of tokens at a separator, and `doubleMessageQueue` cuts it in
three.  Each of them is read as the list of what it does with vectors (`Event`), every stage being executed and writing
something; its segments are those that are complete before a pointer is stored outside of a vector or a NULL is followed.

* `segmentation_iff`: when the segments are the parts between the separators (`Splits`);
* `stores_fit_iff`: when every pointer is stored inside its vector.
-/

namespace NetProg.Shell.Splitting

open NetProg.Lib

inductive Event where
  /-- `subarray(argv, start, stop)` is called for a vector of `nofargs` tokens -/
  | subarray (start stop nofargs : ℤ)
  /-- a pointer is stored at `index` of a vector that is allocated with `entries` -/
  | store (index entries : ℤ)
  /-- a vector is complete -/
  | segment (seg : List CStr)
  /-- `getfile` is given a NULL, which `strcat` follows -/
  | null
  deriving DecidableEq

/-- Nothing outside of a vector is read or written. -/
def Event.Fits : Event → Prop
  | subarray start stop nofargs => 0 ≤ start ∧ start ≤ stop + 1 ∧ stop < nofargs
  | store index entries => 0 ≤ index ∧ index < entries
  | _ => True

instance : DecidablePred Event.Fits := fun e => by
  cases e <;> unfold Event.Fits <;> infer_instance

/-- The stores of a vector of `n` pointers and a NULL. -/
def fill (n : ℕ) (entries : ℤ) : List Event := (List.range (n + 1)).map fun i : ℕ => .store i entries

/-- The result of `strinarr`. -/
def index (argv : List CStr) (sym : CStr) (start : ℕ) : ℤ := (strinarr (words argv) sym start).elim (-1) (↑)

/-- `subarray(argv, start, stop)` -/
def subarray (argv : List CStr) (start stop : ℤ) : List Event :=
  .subarray start stop argv.length ::
    ((List.range (stop - start + 1).toNat).map fun i : ℕ => .store i (stop - start + 2)) ++
      [.store (stop - start + 1) (stop - start + 2), .segment ((argv.drop start.toNat).take (stop - start + 1).toNat)]

/-- One round of `pipecommand`, and what follows it. -/
def pipecommand.round (argv : List CStr) (prev_index index : ℤ) (rest : List Event) : List Event :=
  match argv[(prev_index + 1).toNat]? with
  | none => [.null]
  | some _ => subarray argv (prev_index + 1) (index - 1) ++ rest

/-- The loop of `pipecommand`, with the number of separators ahead. -/
def pipecommand.loop (argv : List CStr) : ℕ → ℤ → List Event
  | 0, prev_index => pipecommand.round argv prev_index argv.length []
  | left + 1, prev_index =>
    pipecommand.round argv prev_index (index argv bar (prev_index + 1).toNat)
      (pipecommand.loop argv left (index argv bar (prev_index + 1).toNat))

def pipecommand (argv : List CStr) : List Event := pipecommand.loop argv (argv.count bar) (-1)

/-- The loop of `shmPipe` and of `messageQueuePipe`, with the number of rounds ahead. -/
def rounds (argv : List CStr) (sym : CStr) (countofpipe : ℕ) : ℕ → ℕ → List Event
  | 0, _ => []
  | left + 1, index =>
    let temp := (argv.drop index).takeWhile (· ≠ sym)
    fill temp.length countofpipe ++ .segment temp ::
      if temp = [] then [.null] else rounds argv sym countofpipe left (index + temp.length + 1)

def shmPipe (argv : List CStr) : List Event :=
  rounds argv (lit "S") (argv.count (lit "S")) (argv.count (lit "S") + 1) 0

def messageQueuePipe (argv : List CStr) : List Event :=
  rounds argv (lit "#") (argv.count (lit "#")) (argv.count (lit "#") + 1) 0

def doubleMessageQueue (argv : List CStr) : List Event :=
  let index1 := index argv (lit "##") 0
  let index2 := index argv (lit ",") (index1 + 1).toNat
  subarray argv 0 (index1 - 1) ++ subarray argv (index1 + 1) (index2 - 1) ++ subarray argv (index2 + 1) (argv.length - 1)

/-- The segments that are complete before something goes wrong. -/
def collected : List Event → List (List CStr)
  | [] => []
  | .segment seg :: es => seg :: collected es
  | .null :: _ => []
  | e :: es => if e.Fits then collected es else []

/-- The parts of a vector between the separators. -/
structure Splits (sym : CStr) (argv : List CStr) (segs : List (List CStr)) : Prop where
  length : segs.length = argv.count sym + 1
  joined : [sym].intercalate segs = argv
  free : ∀ seg ∈ segs, sym ∉ seg

/-! ### The split of a vector -/

section Split

variable {sym : CStr} {argv seg rest : List CStr} {segs : List (List CStr)}

theorem splits_splitOn (sym : CStr) (argv : List CStr) : Splits sym argv (argv.splitOn sym) := by
  refine ⟨?_, List.intercalate_splitOn sym, ?_⟩
  · induction argv with
    | nil => rfl
    | cons a argv ih =>
      rw [List.splitOn_cons_eq_if_modifyHead, List.count_cons]
      split <;> simp [ih]
  · induction argv with
    | nil => simp
    | cons a argv ih =>
      rw [List.splitOn_cons_eq_if_modifyHead]
      split_ifs with ha
      · simpa using ih
      · obtain ⟨s, ss, hs⟩ := List.exists_cons_of_ne_nil (List.splitOn_ne_nil sym argv)
        rw [hs] at ih ⊢
        simp only [List.modifyHead_cons, List.forall_mem_cons] at ih ⊢
        refine ⟨?_, ih.2⟩
        simpa [ih.1] using fun h : sym = a => ha (by simp [h])

/-- There is one way to split a vector. -/
theorem splits_iff : Splits sym argv segs ↔ segs = argv.splitOn sym := by
  constructor
  · rintro ⟨hlen, rfl, hfree⟩
    have hne : segs ≠ [] := by
      intro h
      simp [h] at hlen
    rw [List.splitOn_intercalate sym hfree hne]
  · rintro rfl
    exact splits_splitOn sym argv

/-- The first part of a vector, with the part behind the separator. -/
theorem exists_split (h : sym ∈ argv) : ∃ seg rest, argv = seg ++ sym :: rest ∧ sym ∉ seg ∧
    argv.splitOn sym = seg :: rest.splitOn sym ∧ argv.count sym = rest.count sym + 1 := by
  obtain ⟨seg, rest, rfl, hseg⟩ := List.eq_append_cons_of_mem h
  refine ⟨seg, rest, rfl, hseg, List.splitOn_append_cons_self_of_not_mem hseg rest, ?_⟩
  rw [List.count_append, List.count_eq_zero_of_not_mem hseg, List.count_cons_self, Nat.zero_add]

end Split

/-! ### What is collected -/

section Collected

variable {sym : CStr} {argv seg rest : List CStr} {es es' : List Event} {start n left k : ℕ}

@[simp] theorem collected_store (i entries : ℤ) (es : List Event) :
    collected (.store i entries :: es) = if (Event.store i entries).Fits then collected es else [] := by
  rw [collected] <;> simp

@[simp] theorem collected_subarray (start stop nofargs : ℤ) (es : List Event) :
    collected (.subarray start stop nofargs :: es) =
      if (Event.subarray start stop nofargs).Fits then collected es else [] := by
  rw [collected] <;> simp

@[simp] theorem collected_segment (seg : List CStr) (es : List Event) :
    collected (.segment seg :: es) = seg :: collected es := rfl

@[simp] theorem collected_nil : collected [] = [] := rfl

@[simp] theorem collected_null (es : List Event) : collected (.null :: es) = [] := rfl

/-- What stands behind stores counts where all of them fit. -/
theorem collected_stores (hes : ∀ e ∈ es, ∃ i entries, e = .store i entries) :
    collected (es ++ es') = if ∀ e ∈ es, e.Fits then collected es' else [] := by
  induction es with
  | nil => simp
  | cons e es ih =>
    obtain ⟨i, entries, rfl⟩ := hes e (by simp)
    rw [List.cons_append, collected_store, ih fun e he => hes e (List.mem_cons_of_mem _ he)]
    by_cases hfits : (Event.store i entries).Fits
    · simp [hfits]
    · simp [hfits]

theorem fill_fits : (∀ e ∈ fill n k, e.Fits) ↔ n < k := by
  simp only [fill, List.forall_mem_map, List.mem_range, Event.Fits]
  constructor
  · intro h
    have := h n (by omega)
    omega
  · intro h i hi
    omega

theorem collected_fill : collected (fill n k ++ es) = if n < k then collected es else [] := by
  rw [collected_stores (by simp [fill])]
  exact if_congr fill_fits rfl rfl

/-- The call that cuts out what stands from `start` on. -/
theorem subarray_eq (hdrop : argv.drop start = seg ++ rest) :
    subarray argv start (start + seg.length - 1) =
      .subarray start (start + seg.length - 1) argv.length :: (fill seg.length (seg.length + 1) ++ [.segment seg]) := by
  have hentries : (start : ℤ) + seg.length - 1 - start + 2 = seg.length + 1 := by omega
  have hlast : (start : ℤ) + seg.length - 1 - start + 1 = seg.length := by omega
  have htake : (argv.drop start).take seg.length = seg := by rw [hdrop, List.take_left]
  simp [subarray, fill, hentries, hlast, htake, List.range_succ]

/-- The call fits, and its vector is collected. -/
theorem subarray_fits (es : List Event) (hdrop : argv.drop start = seg ++ rest) (hstart : start ≤ argv.length) :
    (∀ e ∈ subarray argv start (start + seg.length - 1), e.Fits) ∧
    collected (subarray argv start (start + seg.length - 1) ++ es) = seg :: collected es := by
  have hlen := congrArg List.length hdrop
  simp only [List.length_drop, List.length_append] at hlen
  have hcall : (Event.subarray start (start + seg.length - 1) argv.length).Fits := by
    unfold Event.Fits
    omega
  have hfill : ∀ e ∈ fill seg.length ((seg.length + 1 : ℕ) : ℤ), e.Fits := fill_fits.2 (Nat.lt_succ_self _)
  rw [subarray_eq hdrop]
  refine ⟨?_, ?_⟩
  · intro e he
    rcases List.mem_cons.1 he with rfl | he
    · exact hcall
    · rcases List.mem_append.1 he with he | he
      · exact hfill e he
      · obtain rfl := List.mem_singleton.1 he
        trivial
  · rw [List.cons_append, collected_subarray, if_pos hcall, List.append_assoc]
    have := @collected_fill ([.segment seg] ++ es) seg.length (seg.length + 1)
    push_cast at this
    rw [this, if_pos (Nat.lt_succ_self _)]
    rfl

end Collected

/-! ### `pipecommand` -/

section Pipecommand

variable {argv rest : List CStr} {start left : ℕ}

theorem index_eq {sym : CStr} {seg rest : List CStr} (hdrop : argv.drop start = seg ++ sym :: rest) (hseg : sym ∉ seg) :
    index argv sym start = start + seg.length := by
  have hwords : (words argv).drop start = words seg ++ some sym :: words rest := by
    rw [words, ← List.map_drop, hdrop]
    simp [words]
  rw [index, strinarr_eq hwords (by simpa using hseg)]
  simp

theorem toNat_prev (start : ℕ) : ((start : ℤ) - 1 + 1).toNat = start := by omega

/-- A round before the end of the vector. -/
theorem round_eq (h : start < argv.length) (i : ℤ) (es : List Event) :
    pipecommand.round argv (start - 1) i es = subarray argv start (i - 1) ++ es := by
  rw [pipecommand.round, toNat_prev, List.getElem?_eq_getElem h, Int.sub_add_cancel]

/-- The last round: an empty segment is not collected. -/
theorem pipecommand_last (hdrop : argv.drop start = rest) (hstart : start ≤ argv.length) :
    (∀ e ∈ pipecommand.round argv (start - 1) argv.length [], e.Fits) ∧
    collected (pipecommand.round argv (start - 1) argv.length []) = if rest = [] then [] else [rest] := by
  have hlen := congrArg List.length hdrop
  rw [List.length_drop] at hlen
  split_ifs with hrest
  · have hnone : argv[start]? = none := List.getElem?_eq_none (List.drop_eq_nil_iff.1 (hdrop.trans hrest))
    rw [pipecommand.round, toNat_prev, hnone]
    simp [Event.Fits]
  · have hpos := List.length_pos_iff.2 hrest
    have hlen' : (argv.length : ℤ) = start + rest.length := by omega
    obtain ⟨hfits, hcol⟩ := subarray_fits [] (hdrop.trans (List.append_nil rest).symm) hstart
    rw [round_eq (by omega), hlen']
    exact ⟨by simpa using hfits, hcol⟩

/-- **The loop**: every vector fits, and the segments are collected, but for a last one that is empty. -/
theorem pipecommand_loop (hdrop : argv.drop start = rest) (hstart : start ≤ argv.length) (hleft : left = rest.count bar) :
    (∀ e ∈ pipecommand.loop argv left (start - 1), e.Fits) ∧
    collected (pipecommand.loop argv left (start - 1)) =
      if (rest.splitOn bar).getLast? = some [] then (rest.splitOn bar).dropLast else rest.splitOn bar := by
  induction left generalizing start rest with
  | zero =>
    have hbar : bar ∉ rest := List.count_eq_zero.1 hleft.symm
    obtain ⟨hfits, hcol⟩ := pipecommand_last hdrop hstart
    rw [pipecommand.loop, List.splitOn_eq_singleton hbar]
    exact ⟨hfits, by simpa using hcol⟩
  | succ left ih =>
    have hbar : bar ∈ rest := List.count_pos_iff.1 (by omega)
    obtain ⟨seg, rest', rfl, hseg, hsplit, hcount⟩ := exists_split hbar
    have hlen := congrArg List.length hdrop
    simp only [List.length_drop, List.length_append, List.length_cons] at hlen
    have hnext : argv.drop (start + seg.length + 1) = rest' := by
      rw [Nat.add_assoc, ← List.drop_drop, hdrop, ← List.drop_drop, List.drop_left]
      rfl
    obtain ⟨hfits', hcol'⟩ := ih hnext (by omega) (by omega)
    have hprev : ((start + seg.length + 1 : ℕ) : ℤ) - 1 = start + seg.length := by omega
    rw [hprev] at hfits' hcol'
    obtain ⟨hfits, hcol⟩ := subarray_fits (pipecommand.loop argv left (start + seg.length)) hdrop hstart
    have hlast : (seg :: rest'.splitOn bar).getLast? = (rest'.splitOn bar).getLast? := by
      obtain ⟨s, ss, hs⟩ := List.exists_cons_of_ne_nil (List.splitOn_ne_nil bar rest')
      rw [hs, List.getLast?_cons_cons]
    rw [pipecommand.loop, toNat_prev, index_eq hdrop hseg, round_eq (by omega), hcol, hcol', hsplit, hlast]
    refine ⟨?_, ?_⟩
    · intro e he
      rcases List.mem_append.1 he with he | he
      · exact hfits e he
      · exact hfits' e he
    · split_ifs with hempty
      · rw [List.dropLast_cons_of_ne_nil (List.splitOn_ne_nil bar rest')]
      · rfl

theorem pipecommand_fits (argv : List CStr) : ∀ e ∈ pipecommand argv, e.Fits :=
  (@pipecommand_loop argv argv 0 _ rfl (Nat.zero_le _) rfl).1

/-- `pipecommand` collects every segment where the last one is not empty. -/
theorem pipecommand_splits_iff : Splits bar argv (collected (pipecommand argv)) ↔ (argv.splitOn bar).getLast? ≠ some [] := by
  have hcol : collected (pipecommand argv) = _ := (@pipecommand_loop argv argv 0 _ rfl (Nat.zero_le _) rfl).2
  rw [splits_iff, hcol]
  split_ifs with hempty
  · refine ⟨fun h => ?_, fun h => absurd hempty h⟩
    have hlen := congrArg List.length h
    have hpos := List.length_pos_iff.2 (List.splitOn_ne_nil bar argv)
    rw [List.length_dropLast] at hlen
    omega
  · exact ⟨fun _ => hempty, fun _ => rfl⟩

end Pipecommand

/-! ### The loop of the queues -/

/-- Every segment is shorter than the allocation, and none but the last is empty. -/
structure Roomy (countofpipe : ℕ) (segs : List (List CStr)) : Prop where
  short : ∀ seg ∈ segs, seg.length < countofpipe
  filled : ∀ seg ∈ segs.dropLast, seg ≠ []

instance (countofpipe : ℕ) (segs : List (List CStr)) : Decidable (Roomy countofpipe segs) :=
  decidable_of_iff ((∀ seg ∈ segs, seg.length < countofpipe) ∧ ∀ seg ∈ segs.dropLast, seg ≠ [])
    ⟨fun h => ⟨h.1, h.2⟩, fun h => ⟨h.short, h.filled⟩⟩

/-- Every segment up to the first empty one is shorter than the allocation. -/
def Fitting (countofpipe : ℕ) (segs : List (List CStr)) : Prop :=
  ∀ l seg r, segs = l ++ seg :: r → [] ∉ l → seg.length < countofpipe

section Rounds

variable {argv rest seg : List CStr} {sym : CStr} {segs : List (List CStr)} {index left countofpipe : ℕ}

theorem fitting_cons :
    Fitting countofpipe (seg :: segs) ↔ seg.length < countofpipe ∧ (seg ≠ [] → Fitting countofpipe segs) := by
  constructor
  · intro h
    refine ⟨h [] seg segs rfl (by simp), fun hne l s r heq hl => h (seg :: l) s r (by rw [heq]; rfl) ?_⟩
    simpa using ⟨hne, hl⟩
  · rintro ⟨hlt, hrest⟩ l s r heq hl
    cases l with
    | nil =>
      obtain ⟨rfl, -⟩ := List.cons.inj heq
      exact hlt
    | cons a l =>
      obtain ⟨rfl, htail⟩ := List.cons.inj heq
      simp only [List.mem_cons, not_or] at hl
      exact hrest (Ne.symm hl.1) l s r htail hl.2

theorem roomy_cons (hne : segs ≠ []) :
    Roomy countofpipe (seg :: segs) ↔ seg.length < countofpipe ∧ seg ≠ [] ∧ Roomy countofpipe segs := by
  constructor
  · rintro ⟨hshort, hfilled⟩
    rw [List.dropLast_cons_of_ne_nil hne] at hfilled
    simp only [List.forall_mem_cons] at hshort hfilled
    exact ⟨hshort.1, hfilled.1, hshort.2, hfilled.2⟩
  · rintro ⟨hlt, hseg, hshort, hfilled⟩
    refine ⟨List.forall_mem_cons.2 ⟨hlt, hshort⟩, ?_⟩
    rw [List.dropLast_cons_of_ne_nil hne]
    exact List.forall_mem_cons.2 ⟨hseg, hfilled⟩

/-- One round, with the segment it collects. -/
theorem rounds_succ (hdrop : argv.drop index = seg ++ rest) (hseg : sym ∉ seg) (hrest : ∀ a ∈ rest.head?, a = sym) :
    rounds argv sym countofpipe (left + 1) index = fill seg.length countofpipe ++ .segment seg ::
      if seg = [] then [.null] else rounds argv sym countofpipe left (index + seg.length + 1) := by
  have htake : (argv.drop index).takeWhile (· ≠ sym) = seg := by
    rw [hdrop, List.takeWhile_append_of_pos fun a ha => by simpa using fun h : a = sym => hseg (h ▸ ha)]
    cases rest with
    | nil => simp
    | cons a rest => simp [hrest a rfl]
  rw [rounds, htake]

theorem round_fits {n : ℕ} {es : List Event} :
    (∀ e ∈ fill n countofpipe ++ .segment seg :: es, e.Fits) ↔ n < countofpipe ∧ ∀ e ∈ es, e.Fits := by
  simp only [List.forall_mem_append, List.forall_mem_cons, fill_fits]
  simp [Event.Fits]

/-- **The loop** fits where the segments that it comes to are short, and collects them all where none of them is empty. -/
theorem rounds_spec (hdrop : argv.drop index = rest) (hleft : left = rest.count sym) :
    ((∀ e ∈ rounds argv sym countofpipe (left + 1) index, e.Fits) ↔ Fitting countofpipe (rest.splitOn sym)) ∧
    (collected (rounds argv sym countofpipe (left + 1) index) = rest.splitOn sym ↔
      Roomy countofpipe (rest.splitOn sym)) := by
  induction left generalizing index rest with
  | zero =>
    have hsym : sym ∉ rest := List.count_eq_zero.1 hleft.symm
    have hroomy : Roomy countofpipe [rest] ↔ rest.length < countofpipe :=
      ⟨fun h => h.short rest (by simp), fun h => ⟨by simpa using h, by simp⟩⟩
    have hnil : Fitting countofpipe [] := fun l seg r h => by simp at h
    rw [rounds_succ (hdrop.trans (List.append_nil rest).symm) hsym (by simp), List.splitOn_eq_singleton hsym, round_fits,
      fitting_cons, collected_fill, hroomy]
    by_cases hempty : rest = []
    · simp [hempty, hnil, Event.Fits]
    · simp [hempty, hnil, rounds]
  | succ left ih =>
    have hmem : sym ∈ rest := List.count_pos_iff.1 (by omega)
    obtain ⟨seg, rest', rfl, hseg, hsplit, hcount⟩ := exists_split hmem
    have hnext : argv.drop (index + seg.length + 1) = rest' := by
      rw [Nat.add_assoc, ← List.drop_drop, hdrop, ← List.drop_drop, List.drop_left]
      rfl
    obtain ⟨hfits, hcol⟩ := ih hnext (by omega)
    have hne := List.splitOn_ne_nil sym rest'
    rw [rounds_succ hdrop hseg (by simp), hsplit, round_fits, fitting_cons, collected_fill, roomy_cons hne]
    by_cases hempty : seg = []
    · refine ⟨by simp [hempty, Event.Fits], iff_of_false ?_ fun h => h.2.1 hempty⟩
      rw [if_pos hempty]
      split_ifs
      · simp [hempty, Ne.symm hne]
      · simp
    · rw [if_neg hempty, hfits]
      refine ⟨by simp [hempty], ?_⟩
      rw [← hcol]
      by_cases hlt : seg.length < countofpipe
      · simp [hlt, hempty]
      · simp [hlt]

/-- A queue's loop splits a vector where its segments are short and none but the last is empty. -/
theorem rounds_splits_iff : Splits sym argv (collected (rounds argv sym (argv.count sym) (argv.count sym + 1) 0)) ↔
    Roomy (argv.count sym) (argv.splitOn sym) := by
  rw [splits_iff]
  exact (rounds_spec (List.drop_zero (l := argv)) rfl).2

theorem rounds_fits_iff : (∀ e ∈ rounds argv sym (argv.count sym) (argv.count sym + 1) 0, e.Fits) ↔
    Fitting (argv.count sym) (argv.splitOn sym) :=
  (rounds_spec (List.drop_zero (l := argv)) rfl).1

/-- **The segmentation.**  `pipecommand` collects the parts between the bars where the last one is not empty; the loops of
the queues do where every part is shorter than the number of separators and none but the last is empty. -/
theorem segmentation_iff (argv : List CStr) :
    (Splits bar argv (collected (pipecommand argv)) ↔ (argv.splitOn bar).getLast? ≠ some []) ∧
    (Splits (lit "S") argv (collected (shmPipe argv)) ↔ Roomy (argv.count (lit "S")) (argv.splitOn (lit "S"))) ∧
    (Splits (lit "#") argv (collected (messageQueuePipe argv)) ↔
      Roomy (argv.count (lit "#")) (argv.splitOn (lit "#"))) :=
  ⟨pipecommand_splits_iff, rounds_splits_iff, rounds_splits_iff⟩

/-- `ls |` loses its second segment, and `ls S S wc` all behind its first one. -/
theorem segmentation_differs :
    ¬ Splits bar (["ls", "|"].map lit) (collected (pipecommand (["ls", "|"].map lit))) ∧
    ¬ Splits (lit "S") (["ls", "S", "S", "wc"].map lit) (collected (shmPipe (["ls", "S", "S", "wc"].map lit))) ∧
    ¬ Splits (lit "#") (["ls", "#", "#", "wc"].map lit) (collected (messageQueuePipe (["ls", "#", "#", "wc"].map lit))) := by
  simp only [splits_iff]
  decide

end Rounds

/-! ### `doubleMessageQueue` -/

/-- A comma stands behind the first `##`. -/
def Forked (argv : List CStr) : Prop := ∃ l r, argv = l ++ lit "##" :: r ∧ lit "##" ∉ l ∧ lit "," ∈ r

section DoubleMessageQueue

variable {argv l r : List CStr} {start : ℕ} {sym : CStr}

theorem index_eq_neg_one (h : sym ∉ argv.drop start) : index argv sym start = -1 := by
  have hnone : strinarr (words argv) sym start = none := by
    apply strinarr_eq_none
    rw [words, ← List.map_drop]
    exact fun hmem => h (some_mem_words.1 hmem)
  rw [index, hnone]
  rfl

/-- A search that fails makes the call in which its result is the end a wrong one. -/
theorem not_subarray_fits {i : ℤ} (hi : 0 ≤ i) : ¬ ∀ e ∈ subarray argv i (-1 - 1), e.Fits := by
  intro hfits
  have hcall := hfits (.subarray i (-1 - 1) argv.length) (by simp [subarray])
  have := hcall.2.1
  omega

/-- The index of the first `##`, and where the search for the comma starts. -/
theorem index_first (hl : sym ∉ l) : index (l ++ sym :: r) sym 0 = l.length ∧ ((l.length : ℤ) + 1).toNat = l.length + 1 ∧
    (l ++ sym :: r).drop (l.length + 1) = r := by
  have hdrop : (l ++ sym :: r).drop 0 = l ++ sym :: r := rfl
  refine ⟨by simpa using index_eq hdrop hl, by omega, ?_⟩
  rw [← List.drop_drop, List.drop_left]
  rfl

theorem subarray_fits_of_eq {stop : ℤ} {seg rest : List CStr} (hdrop : argv.drop start = seg ++ rest)
    (hstart : start ≤ argv.length) (hstop : stop = start + seg.length - 1) : ∀ e ∈ subarray argv start stop, e.Fits := by
  rw [hstop]
  exact (subarray_fits [] hdrop hstart).1

theorem doubleMessageQueue_fits_iff : (∀ e ∈ doubleMessageQueue argv, e.Fits) ↔ Forked argv := by
  unfold doubleMessageQueue
  simp only [List.forall_mem_append]
  constructor
  · rintro ⟨⟨h1, h2⟩, -⟩
    have hmem : lit "##" ∈ argv := by
      by_contra hnot
      rw [index_eq_neg_one (List.drop_zero (l := argv) ▸ hnot)] at h1
      exact not_subarray_fits (Int.le_refl 0) h1
    obtain ⟨l, r, rfl, hl⟩ := List.eq_append_cons_of_mem hmem
    refine ⟨l, r, rfl, hl, ?_⟩
    by_contra hnot
    obtain ⟨hindex, hnat, hdrop⟩ := index_first (r := r) hl
    rw [hindex, hnat, index_eq_neg_one (by rwa [hdrop])] at h2
    exact not_subarray_fits (by omega) h2
  · rintro ⟨l, r, rfl, hl, hcomma⟩
    obtain ⟨r1, r2, rfl, hr1⟩ := List.eq_append_cons_of_mem hcomma
    obtain ⟨hindex, hnat, hdrop⟩ := index_first (r := r1 ++ lit "," :: r2) hl
    have hdrop2 : (l ++ lit "##" :: (r1 ++ lit "," :: r2)).drop (l.length + 1 + r1.length + 1) = r2 := by
      rw [Nat.add_assoc _ r1.length, ← List.drop_drop, hdrop, ← List.drop_drop, List.drop_left]
      rfl
    rw [hindex, hnat, index_eq hdrop hr1]
    refine ⟨⟨?_, ?_⟩, ?_⟩
    · exact subarray_fits_of_eq (List.drop_zero (l := l ++ lit "##" :: _)) (Nat.zero_le _) (by simp)
    · exact subarray_fits_of_eq hdrop (by simp) (by push_cast; rfl)
    · exact subarray_fits_of_eq (hdrop2.trans (List.append_nil r2).symm) (by simp; omega) (by simp; omega)

end DoubleMessageQueue

/-- **The stores.**  `pipecommand` stores every pointer inside its vector; `doubleMessageQueue` does where a comma stands
behind the first `##`, and the loops of the queues do where the segments up to the first empty one are shorter than the
number of separators. -/
theorem stores_fit_iff (argv : List CStr) :
    (∀ e ∈ pipecommand argv, e.Fits) ∧ ((∀ e ∈ doubleMessageQueue argv, e.Fits) ↔ Forked argv) ∧
    ((∀ e ∈ shmPipe argv, e.Fits) ↔ Fitting (argv.count (lit "S")) (argv.splitOn (lit "S"))) ∧
    ((∀ e ∈ messageQueuePipe argv, e.Fits) ↔ Fitting (argv.count (lit "#")) (argv.splitOn (lit "#"))) :=
  ⟨pipecommand_fits argv, doubleMessageQueue_fits_iff, rounds_fits_iff, rounds_fits_iff⟩

/-- `ls S wc` has one entry for the two pointers of `ls`, and `ls ## wc` no comma. -/
theorem stores_outside :
    (¬ ∀ e ∈ shmPipe (["ls", "S", "wc"].map lit), e.Fits) ∧ (¬ ∀ e ∈ messageQueuePipe (["ls", "#", "wc"].map lit), e.Fits) ∧
    ¬ ∀ e ∈ doubleMessageQueue (["ls", "##", "wc"].map lit), e.Fits := by
  decide

end NetProg.Shell.Splitting
