import Mathlib.Tactic.Tauto
import NetProg.Sniffer.Packets

/-!
# What a packet shows of the packets before it

The printer does not look at the length of what it has received.  It keeps to the bytes of a packet, and prints nothing
that depends on the packets before, if and only if the packet has the headers that its bytes announce (`isolated_iff`).
-/

namespace NetProg.Sniffer

open NetProg.Lib

/-- The buffer after these frames. -/
def received (buffer : List Byte) (frames : List (List Byte)) : List Byte := frames.foldl recvfrom buffer

/-- All that is printed for the frame stands in the frame. -/
def Inside (getprotobynumber : ℕ → Option CStr) (buffer frame : List Byte) : Prop :=
  ∀ item ∈ items getprotobynumber (recvfrom buffer frame), item.offset + item.width ≤ packet_size frame

/-- Whatever is in the buffer at first, every frame is printed from its own bytes, and as it would be behind any other
frames. -/
def Isolated (getprotobynumber : ℕ → Option CStr) (frames : List (List Byte)) : Prop :=
  ∀ buffer before frame after, buffer.length = BUFSIZE → frames = before ++ frame :: after →
    Inside getprotobynumber (received buffer before) frame ∧
    ∀ buffer' before', buffer'.length = BUFSIZE → (sniff getprotobynumber buffer frames)[before.length]? =
      (sniff getprotobynumber buffer' (before' ++ [frame]))[before'.length]?

/-- A frame with the Ethernet and the IP header, and with the ports, and of a TCP header what is printed, where the byte of
the protocol announces them. -/
structure Complete (frame : List Byte) : Prop where
  ip : 34 ≤ packet_size frame
  tcp : protocolNumber frame = 6 → payload frame + 16 ≤ packet_size frame
  udp : protocolNumber frame = 17 → payload frame + 4 ≤ packet_size frame

section Isolation

variable {getprotobynumber : ℕ → Option CStr} {buffer buffer' frame : List Byte} {frames before after : List (List Byte)}

/-! ### One frame -/

/-- The fields of the first two headers end with the address of the destination. -/
theorem inside_ip_iff : (∀ item ∈ [eth_source, eth_dest, ip_packet_saddr, ip_packet_daddr, ip_packet_tot_len, ip_packet_ttl,
    protocolItem getprotobynumber], item.offset + item.width ≤ packet_size frame) ↔ 34 ≤ packet_size frame := by
  simp only [List.forall_mem_cons, List.not_mem_nil, false_implies, implies_true, and_true]
  refine ⟨fun h => h.2.2.2.1, fun h => ?_⟩
  refine ⟨?_, ?_, ?_, h, ?_, ?_, ?_⟩
  · show 6 + 6 ≤ packet_size frame
    omega
  · show 0 + 6 ≤ packet_size frame
    omega
  · show 26 + 4 ≤ packet_size frame
    omega
  · show 16 + 2 ≤ packet_size frame
    omega
  · show 22 + 1 ≤ packet_size frame
    omega
  · show 23 + 1 ≤ packet_size frame
    omega

theorem mem_items {item : Item} : item ∈ items getprotobynumber buffer ↔
    item ∈ [eth_source, eth_dest, ip_packet_saddr, ip_packet_daddr, ip_packet_tot_len, ip_packet_ttl,
      protocolItem getprotobynumber] ∨ item ∈ ports buffer ++ tcpItems buffer := by
  simp only [items, List.mem_append, List.mem_cons, List.not_mem_nil, or_false]
  tauto

/-- Which fields of the third header are printed. -/
theorem transportItems_eq (h : 34 ≤ packet_size frame) :
    ports (recvfrom buffer frame) ++ tcpItems (recvfrom buffer frame) =
      if protocolNumber frame = 6 then
        [tcph_source (payload frame), tcph_dest (payload frame), tcph_window (payload frame), tcph_syn (payload frame),
          tcph_fin (payload frame), tcph_rst (payload frame), tcph_ack_seq (payload frame)]
      else if protocolNumber frame = 17 then [udph_source (payload frame), udph_dest (payload frame)]
      else [] := by
  rw [ports, tcpItems, ip_packet_protocol_eq (by omega), transport_eq (by omega)]
  by_cases h6 : protocolNumber frame = 6
  · rw [if_pos h6, if_pos h6, if_pos h6]
    rfl
  · rw [if_neg h6, if_neg h6, if_neg h6, List.append_nil]

/-- Those of a TCP header end with the window, those of a UDP header with the port of the destination. -/
theorem inside_transport_iff (h : 34 ≤ packet_size frame) :
    (∀ item ∈ ports (recvfrom buffer frame) ++ tcpItems (recvfrom buffer frame),
      item.offset + item.width ≤ packet_size frame) ↔
    (protocolNumber frame = 6 → payload frame + 16 ≤ packet_size frame) ∧
      (protocolNumber frame = 17 → payload frame + 4 ≤ packet_size frame) := by
  rw [transportItems_eq h]
  by_cases h6 : protocolNumber frame = 6
  · rw [if_pos h6]
    simp only [List.forall_mem_cons, List.not_mem_nil, false_implies, implies_true, and_true]
    simp only [tcph_source, tcph_dest, tcph_window, tcph_syn, tcph_fin, tcph_rst, tcph_ack_seq, byNtohs, byBit]
    omega
  rw [if_neg h6]
  by_cases h17 : protocolNumber frame = 17
  · rw [if_pos h17]
    simp only [List.forall_mem_cons, List.not_mem_nil, false_implies, implies_true, and_true]
    simp only [udph_source, udph_dest, byNtohs]
    omega
  · rw [if_neg h17]
    refine ⟨fun _ => ⟨fun h => absurd h h6, fun h => absurd h h17⟩, fun _ item hitem => absurd hitem List.not_mem_nil⟩

/-- A frame is printed from its own bytes if and only if it is complete. -/
theorem inside_iff : Inside getprotobynumber buffer frame ↔ Complete frame := by
  have hsplit : Inside getprotobynumber buffer frame ↔ 34 ≤ packet_size frame ∧
      ∀ item ∈ ports (recvfrom buffer frame) ++ tcpItems (recvfrom buffer frame),
        item.offset + item.width ≤ packet_size frame := by
    simp only [Inside, mem_items, or_imp, forall_and]
    rw [inside_ip_iff]
  rw [hsplit]
  refine ⟨fun ⟨hip, htransport⟩ => ?_, fun h => ⟨h.ip, ?_⟩⟩
  · obtain ⟨htcp, hudp⟩ := (inside_transport_iff hip).1 htransport
    exact ⟨hip, htcp, hudp⟩
  · exact (inside_transport_iff h.ip).2 ⟨h.tcp, h.udp⟩

/-- What is printed of a complete frame does not depend on the buffer. -/
theorem printed_eq_of_complete (h : Complete frame) :
    printed getprotobynumber (recvfrom buffer frame) = printed getprotobynumber (recvfrom buffer' frame) := by
  have hip := h.ip
  have hitems : items getprotobynumber (recvfrom buffer frame) = items getprotobynumber (recvfrom buffer' frame) := by
    rw [items, items, ports, ports, tcpItems, tcpItems, ip_packet_protocol_eq (by omega), ip_packet_protocol_eq (by omega),
      transport_eq (by omega), transport_eq (by omega)]
  rw [printed, printed, ← hitems]
  apply List.map_congr_left
  intro item hitem
  have hinside := inside_iff.2 h item hitem
  rw [Item.line, Item.line, slice_recvfrom hinside, slice_recvfrom hinside]

/-! ### A run -/

/-- What is printed for a frame comes from the buffer that it is received into. -/
theorem sniff_getElem? (getprotobynumber : ℕ → Option CStr) (buffer : List Byte) (before : List (List Byte))
    (frame : List Byte) (after : List (List Byte)) :
    (sniff getprotobynumber buffer (before ++ frame :: after))[before.length]? =
      some (printed getprotobynumber (recvfrom (received buffer before) frame)) := by
  induction before generalizing buffer with
  | nil => rfl
  | cons f before ih => exact ih (recvfrom buffer f)

/-- **The frames are isolated** if and only if every one of them is complete. -/
theorem isolated_iff (getprotobynumber : ℕ → Option CStr) (frames : List (List Byte)) :
    Isolated getprotobynumber frames ↔ ∀ frame ∈ frames, Complete frame := by
  constructor
  · intro h frame hmem
    obtain ⟨before, after, rfl⟩ := List.append_of_mem hmem
    exact inside_iff.1 (h (List.replicate BUFSIZE 0) before frame after List.length_replicate rfl).1
  · rintro h buffer before frame after - rfl
    have hcomplete : Complete frame := h frame (List.mem_append_right _ List.mem_cons_self)
    refine ⟨inside_iff.2 hcomplete, fun buffer' before' _ => ?_⟩
    rw [sniff_getElem?, sniff_getElem?]
    exact congrArg some (printed_eq_of_complete hcomplete)

end Isolation

/-- Of a frame with nothing but an Ethernet header, addresses are printed. -/
theorem short_frame_shows : ¬ ∀ (getprotobynumber : ℕ → Option CStr) (frames : List (List Byte)),
    Isolated getprotobynumber frames := by
  intro h
  have hinside := (h (fun _ => none) [segment.take 14] (List.replicate BUFSIZE 0) [] (segment.take 14) []
    List.length_replicate rfl).1
  have haddr : ip_packet_daddr ∈ items (fun _ => none) (recvfrom (List.replicate BUFSIZE 0) (segment.take 14)) :=
    mem_items.2 (.inl (by simp))
  exact absurd (hinside _ haddr) (by decide)

end NetProg.Sniffer
