import NetProg.Lib.ByteOrder

/-!
# The packet printer

The loop of `read_messages.c`: a frame is received into a buffer that is never cleared, and fields of its headers are
printed.

`decoded_iff`: of a well-formed TCP or UDP frame every number is printed as the standards have it, except an acknowledgement
number other than zero.
-/

namespace NetProg.Sniffer

open NetProg.Lib

/-- The size of the buffer, and of `struct ethhdr`. -/
def BUFSIZE : ℕ := 65536
def SIZEOF_ETHHDR : ℕ := 14

/-- What stands before a value that is printed. -/
inductive Label where
  | sourceMac
  | destinationMac
  | sourceAddress
  | destinationAddress
  | packetSize
  | ttl
  | sourcePort
  | destinationPort
  | protocol
  | windowSize
  | syn
  | fin
  | rst
  | ack
  deriving DecidableEq

/-- Numbers, or the name of a protocol. -/
inductive Value where
  | numbers (l : List ℕ)
  | name (s : CStr)
  deriving DecidableEq

/-- A field that is printed: where it stands in the buffer, and what `printf` makes of its bytes. -/
structure Item where
  label : Label
  offset : ℕ
  width : ℕ
  value : List Byte → Value

/-- The line for a field. -/
def Item.line (item : Item) (buffer : List Byte) : Label × Value :=
  (item.label, item.value (slice buffer item.offset item.width))

/-! ### The fields of the structs -/

/-- An array of bytes, or an address that `inet_ntoa` writes. -/
def byBytes (label : Label) (offset width : ℕ) : Item := ⟨label, offset, width, fun l => .numbers (l.map UInt8.toNat)⟩

/-- A number that goes through `ntohs`. -/
def byNtohs (label : Label) (offset width : ℕ) : Item := ⟨label, offset, width, fun l => .numbers [ntohs (littleEndian l)]⟩

def byByte (label : Label) (offset : ℕ) : Item := ⟨label, offset, 1, fun l => .numbers [littleEndian l]⟩

/-- A bit of the flags. -/
def byBit (label : Label) (offset k : ℕ) : Item := ⟨label, offset, 1, fun l => .numbers [littleEndian l / 2 ^ k % 2]⟩

/-- `eth` -/
def eth_dest : Item := byBytes .destinationMac 0 6
def eth_source : Item := byBytes .sourceMac 6 6

/-- `ip_packet` -/
def ip_packet_tot_len : Item := byNtohs .packetSize (SIZEOF_ETHHDR + 2) 2
def ip_packet_ttl : Item := byByte .ttl (SIZEOF_ETHHDR + 8)
def ip_packet_saddr : Item := byBytes .sourceAddress (SIZEOF_ETHHDR + 12) 4
def ip_packet_daddr : Item := byBytes .destinationAddress (SIZEOF_ETHHDR + 16) 4

/-- `ip_packet->ihl`, the four low bits -/
def ip_packet_ihl (buffer : List Byte) : ℕ := littleEndian (slice buffer SIZEOF_ETHHDR 1) % 16

def ip_packet_protocol (buffer : List Byte) : ℕ := littleEndian (slice buffer (SIZEOF_ETHHDR + 9) 1)

/-- The name of the protocol, or its number. -/
def protocolItem (getprotobynumber : ℕ → Option CStr) : Item :=
  ⟨.protocol, SIZEOF_ETHHDR + 9, 1, fun l =>
    match getprotobynumber (littleEndian l) with
    | some p_name => .name p_name
    | none => .numbers [littleEndian l]⟩

/-- `tcph` and `udph` -/
def transport (buffer : List Byte) : ℕ := ip_packet_ihl buffer * 4 + SIZEOF_ETHHDR

def tcph_source (tcph : ℕ) : Item := byNtohs .sourcePort tcph 2
def tcph_dest (tcph : ℕ) : Item := byNtohs .destinationPort (tcph + 2) 2
def tcph_ack_seq (tcph : ℕ) : Item := byNtohs .ack (tcph + 8) 4
def tcph_fin (tcph : ℕ) : Item := byBit .fin (tcph + 13) 0
def tcph_syn (tcph : ℕ) : Item := byBit .syn (tcph + 13) 1
def tcph_rst (tcph : ℕ) : Item := byBit .rst (tcph + 13) 2
def tcph_window (tcph : ℕ) : Item := byNtohs .windowSize (tcph + 14) 2
def udph_source (udph : ℕ) : Item := byNtohs .sourcePort udph 2
def udph_dest (udph : ℕ) : Item := byNtohs .destinationPort (udph + 2) 2

/-! ### The loop -/

/-- `recvfrom`: what is behind the new frame stays. -/
def recvfrom (buffer frame : List Byte) : List Byte := frame.take BUFSIZE ++ buffer.drop frame.length

/-- `packet_size` -/
def packet_size (frame : List Byte) : ℕ := (frame.take BUFSIZE).length

/-- The ports. -/
def ports (buffer : List Byte) : List Item :=
  if ip_packet_protocol buffer = 6 then
    let tcph := transport buffer
    [tcph_source tcph, tcph_dest tcph]
  else if ip_packet_protocol buffer = 17 then
    let udph := transport buffer
    [udph_source udph, udph_dest udph]
  else []

/-- What is printed of a TCP header after the protocol. -/
def tcpItems (buffer : List Byte) : List Item :=
  if ip_packet_protocol buffer = 6 then
    let tcph := transport buffer
    [tcph_window tcph, tcph_syn tcph, tcph_fin tcph, tcph_rst tcph, tcph_ack_seq tcph]
  else []

/-- The fields in the order in which they are printed. -/
def items (getprotobynumber : ℕ → Option CStr) (buffer : List Byte) : List Item :=
  [eth_source, eth_dest, ip_packet_saddr, ip_packet_daddr, ip_packet_tot_len, ip_packet_ttl] ++ ports buffer ++
    [protocolItem getprotobynumber] ++ tcpItems buffer

/-- What is printed after a frame has been received. -/
def printed (getprotobynumber : ℕ → Option CStr) (buffer : List Byte) : List (Label × Value) :=
  (items getprotobynumber buffer).map fun item => item.line buffer

/-- The loop over the frames that arrive. -/
def sniff (getprotobynumber : ℕ → Option CStr) : List Byte → List (List Byte) → List (List (Label × Value))
  | _, [] => []
  | buffer, frame :: frames =>
    let buffer := recvfrom buffer frame
    printed getprotobynumber buffer :: sniff getprotobynumber buffer frames

/-! ### The headers as the standards have them -/

/-- The field in network byte order. -/
def field (frame : List Byte) (offset width : ℕ) : ℕ := bigEndian (slice frame offset width)

/-- The fields of the IP header, in bits of its words. -/
def version (frame : List Byte) : ℕ := field frame 14 1 / 16
def ihl (frame : List Byte) : ℕ := field frame 14 1 % 16
def protocolNumber (frame : List Byte) : ℕ := field frame 23 1

/-- Where the header behind the IP header begins. -/
def payload (frame : List Byte) : ℕ := 14 + 4 * ihl frame

/-- The acknowledgement number of a TCP header. -/
def acknowledgement (frame : List Byte) : ℕ := field frame (payload frame + 8) 4

/-- The value of each field that is printed. -/
def standard (getprotobynumber : ℕ → Option CStr) (frame : List Byte) : Label → Value
  | .destinationMac => .numbers ((slice frame 0 6).map UInt8.toNat)
  | .sourceMac => .numbers ((slice frame 6 6).map UInt8.toNat)
  | .packetSize => .numbers [field frame 16 2]
  | .ttl => .numbers [field frame 22 1]
  | .protocol =>
    match getprotobynumber (protocolNumber frame) with
    | some p_name => .name p_name
    | none => .numbers [protocolNumber frame]
  | .sourceAddress => .numbers ((slice frame 26 4).map UInt8.toNat)
  | .destinationAddress => .numbers ((slice frame 30 4).map UInt8.toNat)
  | .sourcePort => .numbers [field frame (payload frame) 2]
  | .destinationPort => .numbers [field frame (payload frame + 2) 2]
  | .ack => .numbers [acknowledgement frame]
  -- the low bits of the word that begins with the data offset
  | .fin => .numbers [field frame (payload frame + 12) 2 / 2 ^ 0 % 2]
  | .syn => .numbers [field frame (payload frame + 12) 2 / 2 ^ 1 % 2]
  | .rst => .numbers [field frame (payload frame + 12) 2 / 2 ^ 2 % 2]
  | .windowSize => .numbers [field frame (payload frame + 14) 2]

/-- The fields that a frame has. -/
def labels (frame : List Byte) : List Label :=
  [.sourceMac, .destinationMac, .sourceAddress, .destinationAddress, .packetSize, .ttl, .sourcePort, .destinationPort,
    .protocol] ++ if protocolNumber frame = 6 then [.windowSize, .syn, .fin, .rst, .ack] else []

/-- A frame with an IPv4 header and all of a TCP or UDP header. -/
structure WellFormed (frame : List Byte) : Prop where
  fits : frame.length ≤ BUFSIZE
  etherType : field frame 12 2 = 2048
  version : version frame = 4
  ihl : 5 ≤ ihl frame
  protocol : protocolNumber frame = 6 ∨ protocolNumber frame = 17
  complete : payload frame + (if protocolNumber frame = 6 then 20 else 8) ≤ frame.length

/-! ### What is printed of a well-formed frame -/

section Decoding

variable {getprotobynumber : ℕ → Option CStr} {buffer frame : List Byte} {label : Label} {offset width k : ℕ}

theorem packet_size_eq (frame : List Byte) : packet_size frame = min BUFSIZE frame.length := List.length_take

/-- The bytes of the frame are those of the frame. -/
theorem slice_recvfrom (h : offset + width ≤ packet_size frame) :
    slice (recvfrom buffer frame) offset width = slice frame offset width := by
  have hle : offset + width ≤ BUFSIZE := by
    rw [packet_size_eq] at h
    omega
  rw [recvfrom, slice_append h, slice_take hle]

theorem byBytes_value (h : offset + width ≤ packet_size frame) :
    (byBytes label offset width).line (recvfrom buffer frame) =
      (label, .numbers ((slice frame offset width).map UInt8.toNat)) := by
  rw [Item.line, byBytes, slice_recvfrom h]

theorem byNtohs_value (h : offset + 2 ≤ packet_size frame) :
    (byNtohs label offset 2).line (recvfrom buffer frame) = (label, .numbers [field frame offset 2]) := by
  have hlen : offset + 2 ≤ frame.length := by
    rw [packet_size_eq] at h
    omega
  have hvalue : ntohs (littleEndian (slice (recvfrom buffer frame) offset 2)) = field frame offset 2 := by
    rw [slice_recvfrom h, ntohs_of_length_two (length_slice hlen), field]
  exact congrArg (fun n => (label, Value.numbers [n])) hvalue

theorem byte_value (h : offset + 1 ≤ packet_size frame) :
    littleEndian (slice (recvfrom buffer frame) offset 1) = field frame offset 1 := by
  have hlen : offset < frame.length := by
    rw [packet_size_eq] at h
    omega
  rw [slice_recvfrom h, field, slice_one hlen, littleEndian_singleton]

theorem byByte_value (h : offset + 1 ≤ packet_size frame) :
    (byByte label offset).line (recvfrom buffer frame) = (label, .numbers [field frame offset 1]) :=
  congrArg (fun n => (label, Value.numbers [n])) (byte_value h)

/-- The flags are the low bits of their word. -/
theorem byBit_value (hk : k < 8) (h : offset + 2 ≤ packet_size frame) :
    (byBit label (offset + 1) k).line (recvfrom buffer frame) =
      (label, .numbers [field frame offset 2 / 2 ^ k % 2]) := by
  have hword : field frame offset 2 = 256 * field frame offset 1 + field frame (offset + 1) 1 := by
    have hlen : offset + 1 + 1 ≤ frame.length := by
      rw [packet_size_eq] at h
      omega
    have hsplit : slice frame offset 2 = slice frame offset 1 ++ slice frame (offset + 1) 1 :=
      slice_add frame offset 1 1
    rw [field, hsplit, bigEndian_append, length_slice hlen, Nat.pow_one, field, field]
  have hpow : 256 = 2 ^ k * (2 * 2 ^ (7 - k)) := by
    rw [← Nat.pow_succ', ← Nat.pow_add, show k + (7 - k + 1) = 8 by omega]
  have hbit : field frame offset 2 / 2 ^ k % 2 = field frame (offset + 1) 1 / 2 ^ k % 2 := by
    rw [hword, hpow, Nat.mul_assoc, Nat.mul_add_div (Nat.two_pow_pos k), Nat.mul_assoc, Nat.mul_add_mod]
  rw [hbit]
  exact congrArg (fun n => (label, Value.numbers [n / 2 ^ k % 2])) (byte_value h)

/-- Of the acknowledgement number the two bytes in front are printed. -/
theorem ack_value_iff (h : offset + 4 ≤ packet_size frame) :
    (byNtohs label offset 4).line (recvfrom buffer frame) = (label, .numbers [field frame offset 4]) ↔
      field frame offset 4 = 0 := by
  have hlen : offset + 4 ≤ frame.length := by
    rw [packet_size_eq] at h
    omega
  show (label, Value.numbers [ntohs (littleEndian (slice (recvfrom buffer frame) offset 4))]) = _ ↔ _
  rw [slice_recvfrom h, field, ← ntohs_eq_iff_of_length_four (length_slice hlen)]
  simp

/-! ### The headers -/

theorem ip_packet_ihl_eq (h : 15 ≤ packet_size frame) : ip_packet_ihl (recvfrom buffer frame) = ihl frame :=
  congrArg (· % 16) (byte_value h)

theorem transport_eq (h : 15 ≤ packet_size frame) : transport (recvfrom buffer frame) = payload frame := by
  rw [transport, ip_packet_ihl_eq h, payload, SIZEOF_ETHHDR]
  omega

theorem ip_packet_protocol_eq (h : 24 ≤ packet_size frame) :
    ip_packet_protocol (recvfrom buffer frame) = protocolNumber frame := byte_value h

theorem protocolItem_line (h : 24 ≤ packet_size frame) :
    (protocolItem getprotobynumber).line (recvfrom buffer frame) = (.protocol, standard getprotobynumber frame .protocol) := by
  have hvalue : littleEndian (slice (recvfrom buffer frame) 23 1) = protocolNumber frame := byte_value h
  show (Label.protocol, match getprotobynumber (littleEndian (slice (recvfrom buffer frame) 23 1)) with
    | some p_name => Value.name p_name
    | none => .numbers [littleEndian (slice (recvfrom buffer frame) 23 1)]) = _
  rw [hvalue]
  rfl

theorem WellFormed.packet_size_eq (h : WellFormed frame) : packet_size frame = frame.length := by
  rw [Sniffer.packet_size_eq, min_eq_right h.fits]

theorem WellFormed.length_ge (h : WellFormed frame) : 42 ≤ frame.length ∧ 34 ≤ payload frame := by
  have hihl := h.ihl
  have hcomplete := h.complete
  rw [payload] at hcomplete ⊢
  split at hcomplete
  · omega
  · omega

/-- The fields that are printed are those that the frame has. -/
theorem map_label_items (getprotobynumber : ℕ → Option CStr) (buffer : List Byte) (h : WellFormed frame) :
    (items getprotobynumber (recvfrom buffer frame)).map Item.label = labels frame := by
  obtain ⟨hlen, -⟩ := h.length_ge
  have hsize := h.packet_size_eq
  rw [items, ports, tcpItems, ip_packet_protocol_eq (by omega), labels]
  rcases h.protocol with hp | hp
  · rw [hp]
    rfl
  · rw [hp]
    rfl

/-- The line shows the field as the standards have it. -/
def Shows (getprotobynumber : ℕ → Option CStr) (frame buffer : List Byte) (item : Item) : Prop :=
  item.line buffer = (item.label, standard getprotobynumber frame item.label)

/-- What is printed before the transport header is right. -/
theorem shows_of_mem_ip (getprotobynumber : ℕ → Option CStr) (buffer : List Byte) (h : 34 ≤ packet_size frame) :
    ∀ item ∈ [eth_source, eth_dest, ip_packet_saddr, ip_packet_daddr, ip_packet_tot_len, ip_packet_ttl,
      protocolItem getprotobynumber],
    Shows getprotobynumber frame (recvfrom buffer frame) item := by
  have hhdr : SIZEOF_ETHHDR = 14 := rfl
  simp only [List.forall_mem_cons, List.not_mem_nil, false_implies, implies_true, and_true]
  refine ⟨?_, ?_, ?_, ?_, ?_, ?_, ?_⟩
  · exact byBytes_value (by omega)
  · exact byBytes_value (by omega)
  · exact byBytes_value (by omega)
  · exact byBytes_value (by omega)
  · exact byNtohs_value (by omega)
  · exact byByte_value (by omega)
  · exact protocolItem_line (by omega)

/-- The ports are in the same places in both headers. -/
theorem shows_of_mem_ports (h : WellFormed frame) : ∀ item ∈ ports (recvfrom buffer frame),
    Shows getprotobynumber frame (recvfrom buffer frame) item := by
  obtain ⟨hlen, hpayload⟩ := h.length_ge
  have hsize := h.packet_size_eq
  have hcomplete := h.complete
  have hbound : payload frame + 8 ≤ packet_size frame := by
    split at hcomplete <;> omega
  have hports : ∀ item ∈ [tcph_source (payload frame), tcph_dest (payload frame)],
      Shows getprotobynumber frame (recvfrom buffer frame) item := by
    simp only [List.forall_mem_cons, List.not_mem_nil, false_implies, implies_true, and_true]
    refine ⟨?_, ?_⟩
    · exact byNtohs_value (by omega)
    · exact byNtohs_value (by omega)
  rw [ports, ip_packet_protocol_eq (by omega), transport_eq (by omega)]
  rcases h.protocol with hp | hp
  · rw [hp]
    exact hports
  · rw [hp]
    exact hports

/-- The rest of a TCP header is right but for an acknowledgement number. -/
theorem shows_tcpItems_iff (getprotobynumber : ℕ → Option CStr) (buffer : List Byte) (h : WellFormed frame) :
    (∀ item ∈ tcpItems (recvfrom buffer frame), Shows getprotobynumber frame (recvfrom buffer frame) item) ↔
      (protocolNumber frame = 6 → acknowledgement frame = 0) := by
  obtain ⟨hlen, hpayload⟩ := h.length_ge
  have hsize := h.packet_size_eq
  have hcomplete := h.complete
  rw [tcpItems, ip_packet_protocol_eq (by omega), transport_eq (by omega)]
  by_cases hp : protocolNumber frame = 6
  · rw [if_pos hp] at hcomplete ⊢
    simp only [List.forall_mem_cons, List.not_mem_nil, false_implies, implies_true, and_true]
    have hwindow : Shows getprotobynumber frame (recvfrom buffer frame) (tcph_window (payload frame)) :=
      byNtohs_value (by omega)
    have hsyn : Shows getprotobynumber frame (recvfrom buffer frame) (tcph_syn (payload frame)) :=
      byBit_value (by omega) (by omega)
    have hfin : Shows getprotobynumber frame (recvfrom buffer frame) (tcph_fin (payload frame)) :=
      byBit_value (by omega) (by omega)
    have hrst : Shows getprotobynumber frame (recvfrom buffer frame) (tcph_rst (payload frame)) :=
      byBit_value (by omega) (by omega)
    have hack : Shows getprotobynumber frame (recvfrom buffer frame) (tcph_ack_seq (payload frame)) ↔
        acknowledgement frame = 0 := ack_value_iff (by omega)
    rw [hack]
    exact ⟨fun hall _ => hall.2.2.2.2, fun hzero => ⟨hwindow, hsyn, hfin, hrst, hzero hp⟩⟩
  · rw [if_neg hp]
    exact ⟨fun _ hp' => absurd hp' hp, fun _ item hitem => absurd hitem List.not_mem_nil⟩

/-- The lines are those of the standards if every one of them is. -/
theorem printed_eq_iff (getprotobynumber : ℕ → Option CStr) (buffer : List Byte) (h : WellFormed frame) :
    printed getprotobynumber (recvfrom buffer frame) =
    (labels frame).map (fun label => (label, standard getprotobynumber frame label)) ↔
      ∀ item ∈ items getprotobynumber (recvfrom buffer frame),
        Shows getprotobynumber frame (recvfrom buffer frame) item := by
  rw [printed, ← map_label_items getprotobynumber buffer h, List.map_map,
    List.map_inj_left]
  rfl

/-- **What is printed of a well-formed frame** is what the standards say, unless it has a TCP header with an acknowledgement
number other than zero. -/
theorem decoded_iff (getprotobynumber : ℕ → Option CStr) (buffer : List Byte) (h : WellFormed frame) :
    printed getprotobynumber (recvfrom buffer frame) =
      (labels frame).map (fun label => (label, standard getprotobynumber frame label)) ↔
    (protocolNumber frame = 6 → acknowledgement frame = 0) := by
  obtain ⟨hlen, hpayload⟩ := h.length_ge
  have hsize := h.packet_size_eq
  rw [printed_eq_iff getprotobynumber buffer h, ← shows_tcpItems_iff getprotobynumber buffer h]
  refine ⟨fun hall item hitem => hall item (List.mem_append_right _ hitem), fun htcp item hitem => ?_⟩
  have hip := shows_of_mem_ip getprotobynumber buffer (show 34 ≤ packet_size frame by omega)
  simp only [items, List.mem_append] at hitem
  rcases hitem with ((hitem | hitem) | hitem) | hitem
  · exact hip item (List.mem_append_left [protocolItem getprotobynumber] hitem)
  · exact shows_of_mem_ports h item hitem
  · exact hip item (List.mem_append_right [_, _, _, _, _, _] hitem)
  · exact htcp item hitem

end Decoding

/-! ### A TCP segment that acknowledges one byte -/

/-- The three headers and no data. -/
def segment : List Byte :=
  [2, 0, 0, 0, 0, 1, 2, 0, 0, 0, 0, 2, 8, 0,
    0x45, 0, 0, 40, 0, 0, 0, 0, 64, 6, 0, 0, 10, 0, 0, 1, 10, 0, 0, 2,
    0, 80, 16, 0, 0, 0, 0, 0, 0, 0, 0, 1, 0x50, 16, 1, 0, 0, 0, 0, 0]

theorem wellFormed_segment : WellFormed segment where
  fits := by decide
  etherType := by decide
  version := by decide
  ihl := by decide
  protocol := by decide
  complete := by decide

/-- With zero in its place the segment is printed as it is. -/
theorem decoded_syn : ∃ frame, WellFormed frame ∧ acknowledgement frame = 0 ∧
    printed (fun _ => none) (recvfrom (List.replicate BUFSIZE 0) frame) =
      (labels frame).map (fun label => (label, standard (fun _ => none) frame label)) := by
  have hzero : acknowledgement (segment.set 45 0) = 0 := by decide
  have hwf : WellFormed (segment.set 45 0) :=
    ⟨by decide, by decide, by decide, by decide, by decide, by decide⟩
  exact ⟨_, hwf, hzero, (decoded_iff _ _ hwf).2 fun _ => hzero⟩

/-- Its acknowledgement number is not printed. -/
theorem acknowledgement_cut : ¬ ∀ (getprotobynumber : ℕ → Option CStr) (buffer frame : List Byte), WellFormed frame →
    printed getprotobynumber (recvfrom buffer frame) =
      (labels frame).map (fun label => (label, standard getprotobynumber frame label)) := by
  intro h
  have hone : ¬ acknowledgement segment = 0 := by decide
  have hshows := (printed_eq_iff _ _ wellFormed_segment).1 (h (fun _ => none) (List.replicate BUFSIZE 0) segment wellFormed_segment)
  have htcp := (shows_tcpItems_iff _ _ wellFormed_segment).1 fun item hitem =>
    hshows item (List.mem_append_right _ hitem)
  exact hone (htcp (by decide))

end NetProg.Sniffer
