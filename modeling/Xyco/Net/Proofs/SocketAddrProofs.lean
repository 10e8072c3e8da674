import Xyco.Net.SocketAddr

/-!
# Proofs: socket addresses

The family and the address of a peer come through `accept`. Its port is in network order when it goes
to `new_v4`, which converts it once more. On a host with the other byte order this undoes the first
conversion.
-/

namespace Xyco.Net

theorem toNat_swapBytes (x : UInt16) :
    (swapBytes x).toNat = x.toNat % 256 * 256 + x.toNat / 256 := by
  have hx := x.toNat_lt
  have hhigh : x.toNat / 256 < 2 ^ 8 := by omega
  have hor := Nat.two_pow_add_eq_or_of_lt hhigh (x.toNat % 256)
  have hleft : x.toNat <<< 8 % 2 ^ 16 = 2 ^ 8 * (x.toNat % 256) := by
    rw [Nat.shiftLeft_eq]
    omega
  have hright : x.toNat >>> 8 = x.toNat / 256 := Nat.shiftRight_eq_div_pow _ 8
  rw [swapBytes, UInt16.toNat_or, UInt16.toNat_shiftLeft, UInt16.toNat_shiftRight]
  show x.toNat <<< 8 % 2 ^ 16 ||| x.toNat >>> 8 = _
  rw [hleft, hright, ← hor]
  omega

theorem swapBytes_swapBytes (x : UInt16) : swapBytes (swapBytes x) = x := by
  apply UInt16.toNat_inj.mp
  have hx := x.toNat_lt
  rw [toNat_swapBytes, toNat_swapBytes]
  omega

/-- The two bytes of a word are equal. -/
theorem swapBytes_eq_self_iff (x : UInt16) :
    swapBytes x = x ↔ x.toNat % 256 = x.toNat / 256 := by
  have hx := x.toNat_lt
  rw [← UInt16.toNat_inj, toNat_swapBytes]
  omega

theorem ntohs_htons (order : ByteOrder) (x : UInt16) : ntohs order (htons order x) = x := by
  cases order with
  | little => exact swapBytes_swapBytes x
  | big => rfl

theorem htons_htons_eq_iff (order : ByteOrder) (x : UInt16) :
    htons order (htons order x) = htons order x ↔
      order = .big ∨ x.toNat % 256 = x.toNat / 256 := by
  cases order with
  | little =>
    have hswap : swapBytes (swapBytes x) = swapBytes x ↔ swapBytes x = x := by
      rw [swapBytes_swapBytes]
      exact eq_comm
    rw [← swapBytes_eq_self_iff, ← hswap]
    simp [htons]
  | big => simp [htons]

namespace SocketAddr

variable (order : ByteOrder) (libc : Inet) (addr : InAddr) (port : UInt16)

/-- What `accept` returns for a peer. -/
theorem peerAddr_kernelAddr :
    peerAddr order libc (kernelAddr order addr port) =
      .v4 ⟨afInet, htons order (htons order port), addr⟩ := by
  obtain ⟨text, hntop, hpton⟩ := libc.pton_ntop addr
  rw [peerAddr, kernelAddr, hntop, newV4, Ipv4Addr.new, hpton]
  rfl

/-- The address that `accept` returns is that of the peer: as the kernel sees it, as `new_v4` makes it
and by its port. -/
def RoundTrip (accept : ByteOrder → Inet → SockaddrIn → SocketAddr) : Prop :=
  (accept order libc (kernelAddr order addr port)).intoCAddr = .inl (kernelAddr order addr port) ∧
  accept order libc (kernelAddr order addr port) = newV4 order ⟨addr⟩ port ∧
  (accept order libc (kernelAddr order addr port)).getPort order = port

theorem roundTrip_peerAddr_iff :
    RoundTrip order libc addr port peerAddr ↔ order = .big ∨ port.toNat % 256 = port.toNat / 256 := by
  rw [← htons_htons_eq_iff, RoundTrip, peerAddr_kernelAddr]
  constructor
  · rintro ⟨hcaddr, -, -⟩
    exact congrArg SockaddrIn.sinPort (Sum.inl.inj hcaddr)
  · intro hport
    refine ⟨?_, ?_, ?_⟩
    · rw [hport]
      rfl
    · rw [hport]
      rfl
    · rw [hport]
      exact ntohs_htons order port

/-- The address of a peer comes back from both backends exactly if the host has network order, or if
the two bytes of the port are equal. -/
theorem accept_round_trip_iff :
    (RoundTrip order libc addr port Epoll.acceptAddr ↔
      order = .big ∨ port.toNat % 256 = port.toNat / 256) ∧
    (RoundTrip order libc addr port Uring.acceptAddr ↔
      order = .big ∨ port.toNat % 256 = port.toNat / 256) :=
  ⟨roundTrip_peerAddr_iff order libc addr port, roundTrip_peerAddr_iff order libc addr port⟩

end SocketAddr

/-! ## Dotted decimals -/

namespace Dotted

theorem byte_toDigits : ∀ n < 256, byte (Nat.toDigits 10 n) = some (UInt8.ofNat n) := by
  decide +kernel

theorem dot_notMem_toDigits : ∀ n < 256, '.' ∉ Nat.toDigits 10 n := by
  decide +kernel

theorem parse_text (addr : InAddr) : parse (text addr) = some addr := by
  have hdots : ∀ digits ∈ [addr.byte1, addr.byte2, addr.byte3, addr.byte4].map
      (fun byte => Nat.toDigits 10 byte.toNat), '.' ∉ digits := by
    intro digits hmem
    obtain ⟨byte, -, rfl⟩ := List.mem_map.mp hmem
    exact dot_notMem_toDigits _ byte.toNat_lt
  have hbyte : ∀ b : UInt8, byte (Nat.toDigits 10 b.toNat) = some b := by
    intro b
    rw [byte_toDigits _ b.toNat_lt, UInt8.ofNat_toNat]
  rw [parse, text, List.splitOn_intercalate '.' hdots (by simp)]
  simp [hbyte]

/-- The conversions for `AF_INET`. -/
def inet : Inet where
  ntop family addr := if family = afInet then some (text addr) else none
  pton family text := if family = afInet then parse text else none
  pton_ntop addr := ⟨text addr, if_pos rfl, (if_pos rfl).trans (parse_text addr)⟩

end Dotted

/-- A peer with the port 8080 is taken for one with the port 36895. -/
theorem accept_swaps_port :
    (Epoll.acceptAddr .little Dotted.inet (kernelAddr .little ⟨127, 0, 0, 1⟩ 8080)).getPort .little =
      36895 ∧
    (Uring.acceptAddr .little Dotted.inet (kernelAddr .little ⟨127, 0, 0, 1⟩ 8080)).intoCAddr ≠
      .inl (kernelAddr .little ⟨127, 0, 0, 1⟩ 8080) := by
  decide

end Xyco.Net
