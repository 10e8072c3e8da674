import Mathlib.Data.List.Basic

/-!
# Socket addresses

A `SocketAddr` wraps the `sockaddr_in` or the `sockaddr_in6` that goes to the kernel. Its port is in
network order in the first and in host order in the second. `accept` builds the address of a peer from
the `sockaddr_in` that the kernel has filled, by way of its text.
-/

namespace Xyco.Net

/-- The order of the bytes of a word in memory. -/
inductive ByteOrder where
  | little
  | big
deriving DecidableEq, Repr

def swapBytes (x : UInt16) : UInt16 := x <<< 8 ||| x >>> 8

/-- From host order to network order, which is `big`. -/
def htons : ByteOrder → UInt16 → UInt16
  | .little, x => swapBytes x
  | .big, x => x

/-- From network order to host order. -/
def ntohs : ByteOrder → UInt16 → UInt16
  | .little, x => swapBytes x
  | .big, x => x

/-- `AF_INET` -/
def afInet : ℕ := 2

/-- `AF_INET6` -/
def afInet6 : ℕ := 10

/-- `in_addr`, by its bytes in memory. -/
structure InAddr where
  byte1 : UInt8
  byte2 : UInt8
  byte3 : UInt8
  byte4 : UInt8
deriving DecidableEq, Repr

/-- `htonl(INADDR_ANY)`, and an `in_addr` that is not written. -/
def inAddrAny : InAddr := ⟨0, 0, 0, 0⟩

structure SockaddrIn where
  sinFamily : ℕ
  sinPort : UInt16
  sinAddr : InAddr
deriving DecidableEq, Repr

/-- The address is a number of 128 bits. -/
structure SockaddrIn6 where
  sin6Family : ℕ
  sin6Port : UInt16
  sin6Flowinfo : UInt32
  sin6Addr : BitVec 128
  sin6ScopeId : UInt32
deriving DecidableEq, Repr

/-- `inet_ntop` and `inet_pton`; `none` stands for a null pointer and for a text that is not valid.
The second one undoes the first one. -/
structure Inet where
  ntop : (family : ℕ) → InAddr → Option (List Char)
  pton : (family : ℕ) → List Char → Option InAddr
  pton_ntop : ∀ addr, ∃ text, ntop afInet addr = some text ∧ pton afInet text = some addr

structure Ipv4Addr where
  inner : InAddr
deriving DecidableEq, Repr

/-- `Ipv4Addr(const char*)`. -/
def Ipv4Addr.new (libc : Inet) : Option (List Char) → Ipv4Addr
  | none => ⟨inAddrAny⟩
  | some addr => ⟨(libc.pton afInet addr).getD inAddrAny⟩

structure Ipv6Addr where
  inner : BitVec 128
deriving DecidableEq, Repr

/-- `std::variant<SocketAddrV4, SocketAddrV6>`. -/
inductive SocketAddr where
  | v4 (inner : SockaddrIn)
  | v6 (inner : SockaddrIn6)
deriving DecidableEq, Repr

namespace SocketAddr

variable (order : ByteOrder)

def newV4 (ipAddr : Ipv4Addr) (port : UInt16) : SocketAddr :=
  .v4 ⟨afInet, htons order port, ipAddr.inner⟩

def newV6 (ipAddr : Ipv6Addr) (port : UInt16) : SocketAddr :=
  .v6 ⟨afInet6, port, 0, ipAddr.inner, 0⟩

def isV4 : SocketAddr → Bool
  | .v4 _ => true
  | .v6 _ => false

def getPort : SocketAddr → UInt16
  | .v4 inner => ntohs order inner.sinPort
  | .v6 inner => inner.sin6Port

/-- What the pointer of `into_c_addr` points to. -/
def intoCAddr : SocketAddr → SockaddrIn ⊕ SockaddrIn6
  | .v4 inner => .inl inner
  | .v6 inner => .inr inner

end SocketAddr

/-- The address that `accept` returns, from the address that the kernel has filled. -/
def peerAddr (order : ByteOrder) (libc : Inet) (addrIn : SockaddrIn) : SocketAddr :=
  .newV4 order (.new libc (libc.ntop addrIn.sinFamily addrIn.sinAddr)) addrIn.sinPort

/-- `epoll::TcpListener::accept`. -/
def Epoll.acceptAddr := peerAddr

/-- `uring::TcpListener::accept`. -/
def Uring.acceptAddr := peerAddr

/-- The `sockaddr_in` of a peer, as the kernel fills it. -/
def kernelAddr (order : ByteOrder) (addr : InAddr) (port : UInt16) : SockaddrIn :=
  ⟨afInet, htons order port, addr⟩

/-! ## Dotted decimals -/

namespace Dotted

def text (addr : InAddr) : List Char :=
  ['.'].intercalate ([addr.byte1, addr.byte2, addr.byte3, addr.byte4].map
    fun byte => Nat.toDigits 10 byte.toNat)

def byte (digits : List Char) : Option UInt8 :=
  if digits ≠ [] ∧ digits.all Char.isDigit ∧ Nat.ofDigitChars 10 digits 0 < 256 then
    some (UInt8.ofNat (Nat.ofDigitChars 10 digits 0))
  else none

def parse (text : List Char) : Option InAddr :=
  match (text.splitOn '.').mapM byte with
  | some [byte1, byte2, byte3, byte4] => some ⟨byte1, byte2, byte3, byte4⟩
  | _ => none

end Dotted

end Xyco.Net
