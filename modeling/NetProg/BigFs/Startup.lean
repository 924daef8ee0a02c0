import NetProg.Client.Rules
import NetProg.Lib.Inet
import NetProg.Lib.Slots

/-!
# The exchange of addresses at the start

The name server accepts data servers until the client is connected, and then sends their addresses to it; the client
takes them apart and keeps them.

* `acceptLoop` and `sendiptoClient` of the name server, `readAddresses` of the client, each with its tables;
* `admits_acceptLoop`, `sendiptoClient_eq` and `keeps_readAddresses`: what the tables hold;
* `faithful_iff`: for how many data servers the exchange works.
-/

/-! ### The name server -/

namespace NetProg.NameServer

open NetProg.Lib

def MAXDATA : ℕ := 30

/-- What ends the name server while it starts: an access outside of a table, or an error of `accept`. -/
inductive StartupStop where
  | outside
  | exit
  deriving DecidableEq

/-- What a call of `accept` on the non-blocking socket comes to. -/
inductive Accept where
  | wouldBlock
  | failed
  | connected (fd : ℕ) (addr : InAddr)
  deriving DecidableEq

/-- The data servers that the name server knows. -/
structure DataServers where
  dataconnfd : Vector ℤ MAXDATA
  clients : Vector InAddr MAXDATA
  dataptr : ℕ

/-- The global variables before the first round. -/
def DataServers.initial : DataServers where
  dataconnfd := .replicate _ 0
  clients := .replicate _ ⟨0, 0, 0, 0⟩
  dataptr := 0

/-- One round of the accept loop.  The result of `accept` is stored whatever it is, and the address only with a
connection. -/
def acceptRound (s : DataServers) : Accept → Except StartupStop DataServers
  | .wouldBlock => do
    let dataconnfd ← Slots.store .outside s.dataconnfd s.dataptr (-1)
    pure { s with dataconnfd }
  | .failed => do
    let _ ← Slots.store StartupStop.outside s.dataconnfd s.dataptr (-1)
    .error .exit
  | .connected fd addr => do
    let clients ← Slots.store .outside s.clients s.dataptr addr
    let dataconnfd ← Slots.store .outside s.dataconnfd s.dataptr (fd : ℤ)
    pure { dataconnfd, clients, dataptr := s.dataptr + 1 }

/-- The accept loop, with the rounds up to the one behind which `flag` is set: any number of them. -/
def acceptLoop (rounds : List Accept) : Except StartupStop DataServers := rounds.foldlM acceptRound .initial

/-- The loop of `sendiptoClient` up to `dataptr`, and the NUL behind it. -/
def sendiptoClient (s : DataServers) : Except StartupStop (List Byte) := do
  let out ← (List.range s.dataptr).foldlM (fun out i => do
    let addr ← Slots.load .outside s.clients i
    pure (out ++ (inet_ntop addr).bytes ++ (lit " ").bytes)) []
  pure (out ++ [0])

/-- The data server that a call of `accept` admits. -/
def Accept.admitted : Accept → Option (ℕ × InAddr)
  | .connected fd addr => some (fd, addr)
  | _ => none

/-- The data servers that the rounds admit, in order. -/
def admitted (rounds : List Accept) : List (ℕ × InAddr) := rounds.filterMap Accept.admitted

/-- The tables hold these data servers. -/
structure Admits (s : DataServers) (l : List (ℕ × InAddr)) : Prop where
  fds : (l.map fun p => (p.1 : ℤ)) <+: s.dataconnfd.toList
  addrs : l.map Prod.snd <+: s.clients.toList
  dataptr : s.dataptr = l.length

section AcceptLoop

variable {s s' : DataServers} {l : List (ℕ × InAddr)} {x : Accept} {rounds : List Accept}

theorem admits_initial : Admits .initial [] := ⟨List.nil_prefix, List.nil_prefix, rfl⟩

theorem Admits.acceptRound (h : Admits s l) (hs : acceptRound s x = .ok s') : Admits s' (l ++ x.admitted.toList) := by
  cases x with
  | wouldBlock =>
    obtain ⟨fds, hfds, hs⟩ := except_bind_eq_ok.1 hs
    cases hs
    show Admits _ (l ++ [])
    rw [List.append_nil]
    exact ⟨Slots.prefix_store_of_le h.fds (by simp [h.dataptr]) hfds, h.addrs, h.dataptr⟩
  | failed =>
    obtain ⟨fds, -, hs⟩ := except_bind_eq_ok.1 hs
    cases hs
  | connected fd addr =>
    obtain ⟨clients, hclients, hs⟩ := except_bind_eq_ok.1 hs
    obtain ⟨fds, hfds, hs⟩ := except_bind_eq_ok.1 hs
    cases hs
    have h1 : s.dataptr = (l.map fun p => (p.1 : ℤ)).length := by simp [h.dataptr]
    have h2 : s.dataptr = (l.map Prod.snd).length := by simp [h.dataptr]
    rw [h1] at hfds
    rw [h2] at hclients
    refine ⟨?_, ?_, by simp [h.dataptr, Accept.admitted]⟩
    · simpa [Accept.admitted] using Slots.prefix_store h.fds hfds
    · simpa [Accept.admitted] using Slots.prefix_store h.addrs hclients

/-- A round with room in the tables does not stop the name server. -/
theorem acceptRound_ok (h : s.dataptr < MAXDATA) (hx : x ≠ .failed) : ∃ s', acceptRound s x = .ok s' := by
  cases x with
  | wouldBlock => exact ⟨_, except_bind_eq_ok.2 ⟨_, Slots.store_of_lt h, rfl⟩⟩
  | failed => exact absurd rfl hx
  | connected fd addr =>
    exact ⟨_, except_bind_eq_ok.2 ⟨_, Slots.store_of_lt h, except_bind_eq_ok.2 ⟨_, Slots.store_of_lt h, rfl⟩⟩⟩

theorem admitted_cons : admitted (x :: rounds) = x.admitted.toList ++ admitted rounds := by
  cases h : x.admitted <;> simp [admitted, h]

/-- **The accept loop** leaves the admitted data servers in the tables. -/
theorem Admits.foldlM (h : Admits s l) (hs : rounds.foldlM NameServer.acceptRound s = .ok s') :
    Admits s' (l ++ admitted rounds) := by
  induction rounds generalizing s l with
  | nil =>
    cases hs
    simpa [admitted] using h
  | cons x rounds ih =>
    rw [List.foldlM_cons] at hs
    obtain ⟨s₁, h₁, hs⟩ := except_bind_eq_ok.1 hs
    rw [admitted_cons, ← List.append_assoc]
    exact ih (h.acceptRound h₁) hs

theorem admits_acceptLoop (hs : acceptLoop rounds = .ok s) : Admits s (admitted rounds) := admits_initial.foldlM hs

/-- It ends, as long as there is room behind the data servers. -/
theorem Admits.foldlM_ok (h : Admits s l) (hlen : (l ++ admitted rounds).length < MAXDATA) (hr : .failed ∉ rounds) :
    ∃ s', rounds.foldlM NameServer.acceptRound s = .ok s' := by
  induction rounds generalizing s l with
  | nil => exact ⟨s, rfl⟩
  | cons x rounds ih =>
    rw [List.mem_cons, not_or] at hr
    rw [admitted_cons, ← List.append_assoc] at hlen
    have hptr : s.dataptr < MAXDATA := by
      rw [h.dataptr]
      simp only [List.length_append] at hlen
      omega
    obtain ⟨s₁, h₁⟩ := acceptRound_ok hptr (Ne.symm hr.1)
    obtain ⟨s', hs'⟩ := ih (h.acceptRound h₁) hlen hr.2
    exact ⟨s', List.foldlM_cons.trans (except_bind_eq_ok.2 ⟨s₁, h₁, hs'⟩)⟩

theorem acceptLoop_ok (hlen : (admitted rounds).length < MAXDATA) (hr : .failed ∉ rounds) :
    ∃ s, acceptLoop rounds = .ok s := admits_initial.foldlM_ok hlen hr

end AcceptLoop

section SendIp

variable {s : DataServers} {l : List (ℕ × InAddr)} {addrs : List InAddr}

/-- The addresses as they are sent, with a blank behind each. -/
def addressBytes (addrs : List InAddr) : List Byte :=
  addrs.flatMap fun addr => (inet_ntop addr).bytes ++ (lit " ").bytes

theorem addressBytes_nul_free : (0 : Byte) ∉ addressBytes addrs := by
  intro h
  obtain ⟨addr, -, hb⟩ := List.mem_flatMap.1 h
  rcases List.mem_append.1 hb with hb | hb
  · exact (inet_ntop addr).nul_free hb
  · exact (lit " ").nul_free hb

/-- The string of the addresses. -/
def addressText (addrs : List InAddr) : CStr := ⟨addressBytes addrs, addressBytes_nul_free⟩

theorem length_addressBytes_le : (addressBytes addrs).length ≤ 16 * addrs.length := by
  induction addrs with
  | nil => exact Nat.le_refl _
  | cons addr addrs ih =>
    have h1 : (inet_ntop addr).bytes.length ≤ 15 := length_inet_ntop_le
    have h2 : (lit " ").bytes.length = 1 := by decide
    rw [addressBytes, List.flatMap_cons, List.length_append, List.length_append, h2, List.length_cons]
    change (addressBytes addrs).length ≤ _ at ih
    unfold addressBytes at ih
    omega

/-- The rounds of the loop, up to any of them. -/
theorem sendLoop_eq (h : addrs <+: s.clients.toList) {n : ℕ} (hn : n ≤ addrs.length) :
    (List.range n).foldlM (fun out i => do
      let addr ← Slots.load StartupStop.outside s.clients i
      pure (out ++ (inet_ntop addr).bytes ++ (lit " ").bytes)) [] = .ok (addressBytes (addrs.take n)) := by
  induction n with
  | zero => rfl
  | succ n ih =>
    rw [List.range_succ, List.foldlM_append, ih (by omega)]
    refine except_bind_eq_ok.2 ⟨_, rfl, ?_⟩
    rw [List.foldlM_cons, Slots.load_of_prefix h hn, List.take_succ_eq_append_getElem hn, addressBytes, addressBytes,
      List.flatMap_append, List.flatMap_singleton, ← List.append_assoc]
    rfl

/-- **The string that is sent** has the addresses in it, in order. -/
theorem sendiptoClient_eq (h : Admits s l) : sendiptoClient s = .ok (addressText (l.map Prod.snd)).z := by
  have hn : s.dataptr = (l.map Prod.snd).length := by simp [h.dataptr]
  refine except_bind_eq_ok.2 ⟨_, sendLoop_eq h.addrs (Nat.le_of_eq hn), ?_⟩
  rw [hn, List.take_length]
  rfl

end SendIp

end NetProg.NameServer

/-! ### The client -/

namespace NetProg.Client

open NetProg.Lib NetProg.Receive

def MAXDATA : ℕ := 10

/-- The data servers that the client knows. -/
structure Addresses where
  dataips : Vector CStr MAXDATA
  no_of_dataservers : ℕ

/-- The global variables at the start. -/
def Addresses.initial : Addresses where
  dataips := .replicate _ (lit "")
  no_of_dataservers := 0

/-- The loop of `main` over the words of the string, which ends at an empty one. -/
def addressLoop (s : Addresses) : List CStr → Except Stop Addresses
  | [] => .ok s
  | temp :: rest =>
    if temp.bytes.length = 0 then .ok s
    else do
      let dataips ← Slots.store .overflow s.dataips s.no_of_dataservers temp
      addressLoop { dataips, no_of_dataservers := s.no_of_dataservers + 1 } rest

/-- What `main` does with the string in `readbuffer`; it and its copy have `MAX_SIZE` bytes. -/
def readAddresses (readbuffer : CStr) : Except Stop Addresses :=
  if readbuffer.z.length ≤ MAX_SIZE then addressLoop .initial (fields space readbuffer) else .error .overflow

/-- The table holds these texts. -/
structure Keeps (s : Addresses) (words : List CStr) : Prop where
  dataips : words <+: s.dataips.toList
  count : s.no_of_dataservers = words.length

section AddressLoop

variable {s s' : Addresses} {words rest : List CStr} {temp : CStr}

theorem keeps_initial : Keeps .initial [] := ⟨List.nil_prefix, rfl⟩

theorem Keeps.take (h : Keeps s words) : s.dataips.toList.take s.no_of_dataservers = words := by
  rw [h.count]
  exact (List.prefix_iff_eq_take.1 h.dataips).symm

theorem addressLoop_cons (hne : temp.bytes ≠ []) : addressLoop s (temp :: rest) = (do
    let dataips ← Slots.store .overflow s.dataips s.no_of_dataservers temp
    addressLoop { dataips, no_of_dataservers := s.no_of_dataservers + 1 } rest) :=
  if_neg fun h => hne (List.length_eq_zero_iff.1 h)

theorem Keeps.push (h : Keeps s words) {dataips : Vector CStr MAXDATA}
    (hs : Slots.store Stop.overflow s.dataips s.no_of_dataservers temp = .ok dataips) :
    Keeps ⟨dataips, s.no_of_dataservers + 1⟩ (words ++ [temp]) := by
  rw [h.count] at hs
  exact ⟨Slots.prefix_store h.dataips hs, by simp [h.count]⟩

/-- **The loop** keeps all words up to the empty one. -/
theorem Keeps.addressLoop (h : Keeps s words) (hne : ∀ w ∈ rest, w.bytes ≠ [])
    (hs : addressLoop s (rest ++ [lit ""]) = .ok s') : Keeps s' (words ++ rest) := by
  induction rest generalizing s words with
  | nil =>
    cases hs
    rw [List.append_nil]
    exact h
  | cons temp rest ih =>
    rw [List.forall_mem_cons] at hne
    rw [List.cons_append, addressLoop_cons hne.1] at hs
    obtain ⟨dataips, hd, hs⟩ := except_bind_eq_ok.1 hs
    rw [List.append_cons]
    exact ih (h.push hd) hne.2 hs

/-- It does not leave the table when there is room for the words. -/
theorem Keeps.addressLoop_ok (h : Keeps s words) (hne : ∀ w ∈ rest, w.bytes ≠ [])
    (hlen : (words ++ rest).length ≤ MAXDATA) : ∃ s', Client.addressLoop s (rest ++ [lit ""]) = .ok s' := by
  induction rest generalizing s words with
  | nil => exact ⟨s, rfl⟩
  | cons temp rest ih =>
    rw [List.forall_mem_cons] at hne
    have hptr : s.no_of_dataservers < MAXDATA := by
      rw [h.count]
      simp only [List.length_append, List.length_cons] at hlen
      omega
    have hd : Slots.store Stop.overflow s.dataips s.no_of_dataservers temp = .ok _ := Slots.store_of_lt hptr
    obtain ⟨s', hs'⟩ := ih (h.push hd) hne.2 (by simpa using hlen)
    rw [List.cons_append, addressLoop_cons hne.1]
    exact ⟨s', except_bind_eq_ok.2 ⟨_, hd, hs'⟩⟩

end AddressLoop

end NetProg.Client

/-! ### The later divisions -/

namespace NetProg.Client

open NetProg.Lib NetProg.Receive

section Divisions

variable {c : Config}

theorem closed_avoids (t : ℕ) (hk : c.no_of_dataservers ≠ 0) : Closed c t (Proc.Avoids .divide) where
  server h := h
  printf h := h
  receive h := h
  halt h := h
  divide h := absurd h hk
  done := trivial
  opened _ _ := trivial

/-- **No line divides by zero**, whatever is typed, read from the servers or found on the disk. -/
theorem avoids_code (hk : c.no_of_dataservers ≠ 0) (l : Label) : (code c l).Avoids .divide := by
  cases l with
  | prompt t => exact fun line => (closed_avoids t hk).command line
  | receiving t out n i ptr =>
    have h := closed_avoids t hk
    show (receiveChunks c t out n i ptr).Avoids .divide
    unfold receiveChunks
    split
    · refine h.receive fun temp_buf => ?_
      split
      · exact h.advance fun _ => trivial
      · cases out <;> trivial
    · cases out <;> trivial

/-- Without a data server, the first round of the loop of `removefile` divides by zero. -/
theorem not_avoids_code (hk : c.no_of_dataservers = 0) : ¬ (code c (.prompt 0)).Avoids .divide := by
  intro h
  have hline : command c 0 (lit "rm a") = removefile c 0 (some (lit "a")) := by
    have hsep : strsep space (some (lit "rm a")) = (some (lit "rm"), some (lit "a")) := by decide
    simp only [command, hsep, Option.some.injEq]
    rfl
  have hrm := h (lit "rm a")
  rw [hline] at hrm
  have hloop : (removeChunks c 0 (lit "b") 1 0 0).Avoids .divide := hrm (lit "1") (lit "b") (lit "1")
  have hadv : (advance c 0 0 (removeChunks c 0 (lit "b") 0 1)).Avoids .divide := hloop
  rw [advance, if_pos hk] at hadv
  exact hadv rfl

end Divisions

end NetProg.Client

/-! ### Both programs -/

namespace NetProg.BigFs

open NetProg.Lib NetProg.Client NetProg.NameServer

/-- The start-up behind these rounds of the accept loop: no table is left, the client keeps the addresses of the data
servers that were admitted and of no others, in order, and no line that it carries out divides by zero. -/
def Faithful (rounds : List Accept) : Prop :=
  ∃ s out readbuffer t, acceptLoop rounds = .ok s ∧ sendiptoClient s = .ok out ∧ readStr out = some (readbuffer, []) ∧
    readAddresses readbuffer = .ok t ∧
    t.no_of_dataservers = (admitted rounds).length ∧ (∀ i < t.no_of_dataservers, i < Client.MAXDATA) ∧
    (∀ addrs : List InAddr, t.dataips.toList.take t.no_of_dataservers = addrs.map inet_ntop ↔
      addrs = (admitted rounds).map Prod.snd) ∧
    ∀ c : Config, c.no_of_dataservers = t.no_of_dataservers → ∀ l, (code c l).Avoids .divide

section Faithful

variable {rounds : List Accept} {addrs : List InAddr}

theorem space_not_mem_inet_ntop {addr : InAddr} : Client.space ∉ (inet_ntop addr).bytes := by
  intro h
  rcases isDigit_or_dot h with h | h
  · exact absurd h (by decide)
  · exact absurd h (by decide)

/-- The words of the string are the addresses, and the empty one behind the last blank. -/
theorem fields_addressText : fields Client.space (addressText addrs) = addrs.map inet_ntop ++ [lit ""] := by
  apply CStr.map_bytes_injective
  rw [fields_bytes]
  show fieldBytes Client.space (addressBytes addrs) = _
  induction addrs with
  | nil => rfl
  | cons addr addrs ih =>
    have hcons : addressBytes (addr :: addrs) = (inet_ntop addr).bytes ++ Client.space :: addressBytes addrs := by
      rw [addressBytes, List.flatMap_cons, List.append_assoc]
      rfl
    rw [hcons, fieldBytes_append, ih, fieldBytes_of_not_mem space_not_mem_inet_ntop]
    rfl

theorem inet_ntop_words : ∀ w ∈ addrs.map inet_ntop, w.bytes ≠ [] := by
  intro w hw
  obtain ⟨addr, -, rfl⟩ := List.mem_map.1 hw
  exact inet_ntop_ne_empty

/-- **What the client keeps** of a string of addresses, when it does not leave its table. -/
theorem keeps_readAddresses {t : Addresses} (h : readAddresses (addressText addrs) = .ok t) :
    Keeps t (addrs.map inet_ntop) := by
  unfold readAddresses at h
  split at h
  · rw [fields_addressText] at h
    exact keeps_initial.addressLoop inet_ntop_words h
  · cases h

theorem readAddresses_ok (h : addrs.length ≤ Client.MAXDATA) : ∃ t, readAddresses (addressText addrs) = .ok t := by
  have hlen : (addressText addrs).z.length ≤ Receive.MAX_SIZE := by
    have h1 : (addressText addrs).bytes.length ≤ 16 * addrs.length := length_addressBytes_le
    have h2 : Client.MAXDATA = 10 := rfl
    have h3 : Receive.MAX_SIZE = 1024 := rfl
    rw [CStr.z, List.length_append, List.length_singleton]
    omega
  rw [readAddresses, if_pos hlen, fields_addressText]
  exact keeps_initial.addressLoop_ok inet_ntop_words (by simpa using h)

theorem length_le_of_faithful (h : Faithful rounds) : (admitted rounds).length ≤ Client.MAXDATA := by
  obtain ⟨s, out, readbuffer, t, hs, hout, hread, ht, -, -, -, -⟩ := h
  rw [sendiptoClient_eq (admits_acceptLoop hs)] at hout
  cases hout
  rw [readStr_z] at hread
  cases hread
  simpa using Slots.length_le_of_prefix (keeps_readAddresses ht).dataips

theorem length_pos_of_faithful (h : Faithful rounds) : 1 ≤ (admitted rounds).length := by
  obtain ⟨s, out, readbuffer, t, -, -, -, -, hn, -, -, hdiv⟩ := h
  by_contra h0
  have ht : t.no_of_dataservers = 0 := by omega
  exact not_avoids_code ht (hdiv ⟨t.no_of_dataservers, fun _ _ => none, 0⟩ rfl (.prompt 0))

/-- **The exchange of addresses is faithful** if and only if there are data servers, and no more than the table of the
client has room for. -/
theorem faithful_iff (hr : .failed ∉ rounds) :
    Faithful rounds ↔ 1 ≤ (admitted rounds).length ∧ (admitted rounds).length ≤ Client.MAXDATA := by
  refine ⟨fun h => ⟨length_pos_of_faithful h, length_le_of_faithful h⟩, fun ⟨hpos, hle⟩ => ?_⟩
  obtain ⟨s, hs⟩ := acceptLoop_ok (Nat.lt_of_le_of_lt hle (by decide)) hr
  have hlen : ((admitted rounds).map Prod.snd).length ≤ Client.MAXDATA := by simpa using hle
  obtain ⟨t, ht⟩ := readAddresses_ok hlen
  have hkeeps := keeps_readAddresses ht
  have hn : t.no_of_dataservers = (admitted rounds).length := by simpa using hkeeps.count
  refine ⟨s, _, _, t, hs, sendiptoClient_eq (admits_acceptLoop hs), readStr_z _, ht, hn, fun i hi => by omega,
    fun addrs => ?_, fun c hc => avoids_code (by omega)⟩
  rw [hkeeps.take]
  exact ⟨fun h => (List.map_injective_iff.2 inet_ntop_injective h).symm, fun h => congrArg _ h.symm⟩

/-- One data server, and a round without one. -/
theorem faithful_iff_one : Faithful [.wouldBlock, .connected 5 ⟨127, 0, 0, 1⟩] ↔
    1 ≤ (admitted [.wouldBlock, .connected 5 ⟨127, 0, 0, 1⟩]).length ∧
      (admitted [.wouldBlock, .connected 5 ⟨127, 0, 0, 1⟩]).length ≤ Client.MAXDATA :=
  faithful_iff (by decide)

/-- No data server, and one too many for the client, both of which the accept loop admits. -/
theorem not_faithful : ¬ Faithful [] ∧ ¬ Faithful (List.replicate 11 (.connected 5 ⟨127, 0, 0, 1⟩)) ∧
    ∀ n ≤ 11, ∃ s, acceptLoop (List.replicate n (.connected 5 ⟨127, 0, 0, 1⟩)) = .ok s := by
  refine ⟨fun h => absurd (length_pos_of_faithful h) (by decide), fun h => absurd (length_le_of_faithful h) (by decide),
    fun n hn => acceptLoop_ok ?_ ?_⟩
  · have hlen : (admitted (List.replicate n (.connected 5 ⟨127, 0, 0, 1⟩))).length ≤ n :=
      (List.length_filterMap_le _ _).trans (Nat.le_of_eq List.length_replicate)
    exact Nat.lt_of_le_of_lt (hlen.trans hn) (by decide)
  · simp

end Faithful

end NetProg.BigFs
