import NetProg.Lib.Decimal

/-!
# Internet addresses

`inet_ntop` writes an address as text: digits and dots (`isDigit_or_dot`), at most fifteen of them, and never the same
text for two addresses.
-/

namespace NetProg.Lib

/-- `struct in_addr` -/
structure InAddr where
  a : Byte
  b : Byte
  c : Byte
  d : Byte
  deriving DecidableEq

/-- The byte between the numbers of an address. -/
def dot : Byte := 46

/-- `inet_ntop` for `AF_INET`: the four bytes in decimal, with dots between them. -/
def inet_ntop (addr : InAddr) : CStr :=
  (decimal addr.a.toNat).cat <| (lit ".").cat <| (decimal addr.b.toNat).cat <| (lit ".").cat <|
  (decimal addr.c.toNat).cat <| (lit ".").cat <| decimal addr.d.toNat

variable {addr : InAddr}

theorem inet_ntop_bytes : (inet_ntop addr).bytes = decBytes addr.a.toNat ++ dot :: (decBytes addr.b.toNat ++
    dot :: (decBytes addr.c.toNat ++ dot :: decBytes addr.d.toNat)) := rfl

theorem isDigit_or_dot {b : Byte} (h : b ∈ (inet_ntop addr).bytes) : isDigit b = true ∨ b = dot := by
  rw [inet_ntop_bytes] at h
  simp only [List.mem_append, List.mem_cons] at h
  rcases h with h | h | h | h | h | h | h
  all_goals first | exact Or.inr h | exact Or.inl (isDigit_of_mem_digits h)

theorem inet_ntop_ne_empty : (inet_ntop addr).bytes ≠ [] := by
  rw [inet_ntop_bytes]
  simp

/-- The text fits into `INET_ADDRSTRLEN` characters. -/
theorem length_inet_ntop_le : (inet_ntop addr).bytes.length ≤ 15 := by
  have hle (b : Byte) : (decBytes b.toNat).length ≤ 3 :=
    (length_decBytes_le (by decide)).2 (lt_trans b.toNat_lt (by decide))
  have ha := hle addr.a
  have hb := hle addr.b
  have hc := hle addr.c
  have hd := hle addr.d
  rw [inet_ntop_bytes]
  simp only [List.length_append, List.length_cons]
  omega

theorem fieldBytes_inet_ntop : fieldBytes dot (inet_ntop addr).bytes =
    [decBytes addr.a.toNat, decBytes addr.b.toNat, decBytes addr.c.toNat, decBytes addr.d.toNat] := by
  have hdot (n : ℕ) : dot ∉ decBytes n := fun h => absurd (isDigit_of_mem_digits h) (by decide)
  rw [inet_ntop_bytes, fieldBytes_append, fieldBytes_append, fieldBytes_append, fieldBytes_of_not_mem (hdot _),
    fieldBytes_of_not_mem (hdot _), fieldBytes_of_not_mem (hdot _), fieldBytes_of_not_mem (hdot _)]
  rfl

/-- Different addresses have different texts. -/
theorem inet_ntop_injective : Function.Injective inet_ntop := by
  intro addr addr' h
  have hf := congrArg (fun s : CStr => fieldBytes dot s.bytes) h
  simp only [fieldBytes_inet_ntop, List.cons.injEq, and_true] at hf
  obtain ⟨ha, hb, hc, hd⟩ := hf
  have hbyte {x y : Byte} (h : decBytes x.toNat = decBytes y.toNat) : x = y := UInt8.toNat_inj.1 (decBytes_injective h)
  cases addr
  cases addr'
  rw [InAddr.mk.injEq]
  exact ⟨hbyte ha, hbyte hb, hbyte hc, hbyte hd⟩

end NetProg.Lib
