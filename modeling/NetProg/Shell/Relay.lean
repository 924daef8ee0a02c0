import NetProg.Lib.CString

/-!
# Pipelines through a message queue or shared memory

`messageQueuePipe` and `shmPipe` run one stage after the other.  The parent reads what a stage has written, puts it into
a message or into shared memory as a string, and copies it from there to a buffer that is written whole to the pipe of the
next stage.  A stage is a function from the bytes it reads up to the end to the bytes it writes.

`relays_differ`: with two stages or more, neither feeds the second stage what the first one has written, whatever that
is, since it is given as many bytes as the buffer has; `pipecommand` does.
-/

namespace NetProg.Shell

open NetProg.Lib

/-- The size of the buffers of the shell. -/
def MAX_SIZE : ℕ := 100

/-- From all that is read to all that is written. -/
abbrev Filter := List Byte → List Byte

/-- What each stage has read, and what is printed behind the last one. -/
structure Outcome where
  fed : List (List Byte)
  printed : List Byte
  deriving DecidableEq

/-- What each stage reads if it is fed what the one before it has written. -/
def inputs : List Filter → List Byte → List (List Byte)
  | [], _ => []
  | f :: fs, q => q :: inputs fs (f q)

/-- The composition of the stages. -/
def composed (fs : List Filter) (stdin : List Byte) : List Byte := fs.foldl (fun q f => f q) stdin

/-- The stages are fed what they should be, and their composition is printed. -/
structure Computes (fs : List Filter) (stdin : List Byte) (o : Outcome) : Prop where
  fed : o.fed = inputs fs stdin
  printed : o.printed = composed fs stdin

/-! ### The kernel's pipes -/

/-- The stages of `pipecommand` from one on, with what stands in the pipe before it; the parent has closed the pipe, so
that the stage reads to its end. -/
def pipecommand : List Filter → List Byte → Outcome
  | [], q => ⟨[], q⟩
  | f :: fs, q => ⟨q :: (pipecommand fs (f q)).fed, (pipecommand fs (f q)).printed⟩

theorem pipecommand_computes (fs : List Filter) (stdin : List Byte) : Computes fs stdin (pipecommand fs stdin) := by
  induction fs generalizing stdin with
  | nil => exact ⟨rfl, rfl⟩
  | cons f fs ih =>
    have hrest := ih (f stdin)
    exact ⟨congrArg (stdin :: ·) hrest.fed, hrest.printed⟩

/-! ### Strings in buffers -/

/-- A buffer of `MAX_SIZE` bytes, as `malloc` gives it. -/
structure Buffer where
  bytes : List Byte
  length_eq : bytes.length = MAX_SIZE

/-- A string that fits such a buffer. -/
structure Text where
  str : CStr
  fits : str.bytes.length < MAX_SIZE

theorem length_strcpy (b : Buffer) (t : Text) : (t.str.z ++ b.bytes.drop t.str.z.length).length = MAX_SIZE := by
  have hfits := t.fits
  have hz : t.str.z.length = t.str.bytes.length + 1 := List.length_append
  rw [List.length_append, List.length_drop, b.length_eq, hz]
  omega

/-- `strcpy` -/
def Buffer.strcpy (b : Buffer) (t : Text) : Buffer where
  bytes := t.str.z ++ b.bytes.drop t.str.z.length
  length_eq := length_strcpy b t

/-- What `messageQueuePipe` and `shmPipe` keep between two stages: the buffer `tempdata`, the bytes that have not been
read from `fd`, and the string in the message or in shared memory. -/
structure Relay where
  tempdata : Buffer
  fd : List Byte
  text : Text

/-- What the parent does behind a stage that has written `out`: `mark` is what it puts behind the string.  The parent
holds `fd[1]`, so that `read` waits for good where nothing has been written.  Behind a full buffer the NUL is written one
byte too far, and the run goes on; a text that does not fit the message is no outcome. -/
def collect (mark : CStr) (r : Relay) (out : List Byte) : Option Relay :=
  let fd := r.fd ++ out
  let text := (CStr.ofBytes (fd.take MAX_SIZE)).cat mark
  if fd = [] then none
  else if h : text.bytes.length < MAX_SIZE then some { r with fd := fd.drop MAX_SIZE, text := ⟨text, h⟩ }
  else none

/-- The stages behind the first one. -/
def relayed (mark : CStr) : List Filter → Relay → Option Outcome
  | [], r => some ⟨[], r.text.str.bytes⟩
  | f :: fs, r =>
    let tempdata := r.tempdata.strcpy r.text
    -- `write(temppipe[1], tempdata, MAX_SIZE)`
    (collect mark { r with tempdata } (f tempdata.bytes)).bind fun r =>
    (relayed mark fs r).map fun o => { o with fed := tempdata.bytes :: o.fed }

/-- The loop of both, with what `tempdata` holds when it is allocated; a run that does not end has no outcome. -/
def relay (mark : CStr) (tempdata : Buffer) (stages : List Filter) (stdin : List Byte) : Option Outcome :=
  match stages with
  | [] => none
  | f :: fs =>
    (collect mark ⟨tempdata, [], ⟨lit "", by decide⟩⟩ (f stdin)).bind fun r =>
    (relayed mark fs r).map fun o => { o with fed := stdin :: o.fed }

def messageQueuePipe : Buffer → List Filter → List Byte → Option Outcome := relay (lit "")

/-- `sprintf(ptr, "%s\n", buffer)` -/
def shmPipe : Buffer → List Filter → List Byte → Option Outcome := relay (lit "\n")

variable {mark : CStr} {garbage : Buffer} {r r' : Relay} {f g : Filter} {fs : List Filter} {stdin out : List Byte}
  {o : Outcome}

/-- Where the first stage writes nothing, the parent waits for good. -/
theorem relay_eq_none (h : f stdin = []) : relay mark garbage (f :: fs) stdin = none := by
  simp [relay, collect, h]

/-- A short text goes into the message or into shared memory, with the mark behind it. -/
theorem collect_eq (hfd : r.fd = []) (hne : out ≠ []) (hnul : (0 : Byte) ∉ out)
    (hfits : ((CStr.ofBytes out).cat mark).bytes.length < MAX_SIZE) :
    collect mark r out = some { r with fd := [], text := ⟨(CStr.ofBytes out).cat mark, hfits⟩ } := by
  have hlen : out.length < MAX_SIZE := by
    have hbytes := CStr.ofBytes_bytes_of_nul_free hnul
    simp only [CStr.cat, List.length_append, hbytes] at hfits
    omega
  have htake : out.take MAX_SIZE = out := List.take_of_length_le hlen.le
  have hdrop : out.drop MAX_SIZE = [] := List.drop_of_length_le hlen.le
  simp only [collect, hfd, List.nil_append, htake, hdrop, if_neg hne, dif_pos hfits]

theorem relayed_fed (h : relayed mark (f :: fs) r = some o) : ∃ l, o.fed = (r.tempdata.strcpy r.text).bytes :: l := by
  obtain ⟨r', -, h⟩ := Option.bind_eq_some_iff.1 h
  obtain ⟨o', -, rfl⟩ := Option.map_eq_some_iff.1 h
  exact ⟨o'.fed, rfl⟩

/-- What a stage is fed in place of `q`: the mark, a NUL and what the buffer held behind them come with it. -/
def fedFor (mark : CStr) (garbage : Buffer) (q : List Byte) : List Byte :=
  q ++ mark.bytes ++ 0 :: garbage.bytes.drop (q.length + mark.bytes.length + 1)

/-- **What the second stage is fed.** -/
theorem relay_second (hnul : (0 : Byte) ∉ f stdin) (hfits : (f stdin).length + mark.bytes.length < MAX_SIZE)
    (h : relay mark garbage (f :: g :: fs) stdin = some o) : o.fed[1]? = some (fedFor mark garbage (f stdin)) := by
  have hbytes := CStr.ofBytes_bytes_of_nul_free hnul
  have htext : ((CStr.ofBytes (f stdin)).cat mark).bytes.length < MAX_SIZE := by
    rwa [CStr.cat, List.length_append, hbytes]
  by_cases hne : f stdin = []
  · rw [relay_eq_none hne] at h
    cases h
  simp only [relay] at h
  rw [collect_eq rfl hne hnul htext, Option.bind_some] at h
  obtain ⟨o', ho, rfl⟩ := Option.map_eq_some_iff.1 h
  obtain ⟨l, hl⟩ := relayed_fed ho
  show o'.fed[0]? = _
  rw [hl, List.getElem?_cons_zero]
  simp [fedFor, Buffer.strcpy, CStr.z, CStr.cat, hbytes, Nat.add_assoc]

/-- **The second stage is fed a whole buffer.** -/
theorem relay_fed (h : relay mark garbage (f :: g :: fs) stdin = some o) :
    ∃ q l, o.fed = stdin :: q :: l ∧ q.length = MAX_SIZE := by
  obtain ⟨r, -, h⟩ := Option.bind_eq_some_iff.1 h
  obtain ⟨o', ho, rfl⟩ := Option.map_eq_some_iff.1 h
  obtain ⟨l, hl⟩ := relayed_fed ho
  exact ⟨_, l, congrArg (stdin :: ·) hl, (r.tempdata.strcpy r.text).length_eq⟩

/-- A first stage that writes less than a buffer is not what the second one is fed. -/
theorem relay_not_computes (hshort : (f stdin).length < MAX_SIZE) (h : relay mark garbage (f :: g :: fs) stdin = some o) :
    ¬ Computes (f :: g :: fs) stdin o := by
  intro hc
  obtain ⟨q, l, hfed, hlen⟩ := relay_fed h
  have hq := hfed.symm.trans hc.fed
  simp only [inputs, List.cons.injEq, true_and] at hq
  rw [hq.1] at hlen
  omega

/-- **The other pipelines compute something else**: whatever the stages and the input are, as long as what the stages
should be fed are short texts, the second stage is fed a whole buffer in place of the `q` that the first one writes. -/
theorem relays_differ {stages : List Filter} {q : List Byte} (hq : (inputs stages stdin)[1]? = some q)
    (hshort : ∀ q ∈ (inputs stages stdin).tail, (0 : Byte) ∉ q ∧ q.length < MAX_SIZE - 1) :
    (∀ o, messageQueuePipe garbage stages stdin = some o →
      o.fed[1]? = some (fedFor (lit "") garbage q) ∧ ¬ Computes stages stdin o) ∧
    (∀ o, shmPipe garbage stages stdin = some o →
      o.fed[1]? = some (fedFor (lit "\n") garbage q) ∧ ¬ Computes stages stdin o) ∧
    Computes stages stdin (pipecommand stages stdin) := by
  match stages with
  | [] => cases hq
  | [_] => cases hq
  | f :: g :: fs =>
    obtain rfl : f stdin = q := Option.some.inj hq
    obtain ⟨hnul, hlen⟩ := hshort (f stdin) (by simp [inputs])
    have hmark : (f stdin).length + (lit "").bytes.length < MAX_SIZE := by
      show (f stdin).length + 0 < MAX_SIZE
      omega
    have hline : (f stdin).length + (lit "\n").bytes.length < MAX_SIZE := by
      show (f stdin).length + 1 < MAX_SIZE
      omega
    have hfull : (f stdin).length < MAX_SIZE := by omega
    exact ⟨fun o ho => ⟨relay_second hnul hmark ho, relay_not_computes hfull ho⟩,
      fun o ho => ⟨relay_second hnul hline ho, relay_not_computes hfull ho⟩, pipecommand_computes _ _⟩

/-- A buffer of NULs. -/
def zeros : Buffer := ⟨List.replicate MAX_SIZE 0, List.length_replicate⟩

/-- Two stages that copy the input `a`: both runs end, and print something. -/
theorem relays_differ_echo :
    messageQueuePipe zeros [id, id] [97] = some ⟨[[97], fedFor (lit "") zeros [97]], [97]⟩ ∧
    shmPipe zeros [id, id] [97] = some ⟨[[97], fedFor (lit "\n") zeros [97]], [97, 10, 10]⟩ ∧
    (∀ o, messageQueuePipe zeros [id, id] [97] = some o →
      o.fed[1]? = some (fedFor (lit "") zeros [97]) ∧ ¬ Computes [id, id] [97] o) ∧
    (∀ o, shmPipe zeros [id, id] [97] = some o →
      o.fed[1]? = some (fedFor (lit "\n") zeros [97]) ∧ ¬ Computes [id, id] [97] o) ∧
    Computes [id, id] [97] (pipecommand [id, id] [97]) :=
  ⟨by decide +kernel, by decide +kernel, relays_differ rfl (by decide)⟩

/-- **The three pipelines do not compute the same**: one byte comes to the second stage as a hundred. -/
theorem relays_not_equivalent : ¬ ∀ (garbage : Buffer) (stages : List Filter) (stdin : List Byte), 2 ≤ stages.length →
    (∀ q ∈ (inputs stages stdin).tail, (0 : Byte) ∉ q ∧ q.length < MAX_SIZE - 1) →
    (∃ o, messageQueuePipe garbage stages stdin = some o ∧ Computes stages stdin o) ∧
    ∃ o, shmPipe garbage stages stdin = some o ∧ Computes stages stdin o := by
  intro h
  obtain ⟨⟨o, ho, hc⟩, -⟩ := h zeros [id, id] [97] (by decide) (by decide)
  exact relay_not_computes (by decide) ho hc

end NetProg.Shell
