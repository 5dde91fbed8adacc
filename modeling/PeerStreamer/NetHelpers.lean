import PeerStreamer.CInt
import PeerStreamer.Lib.CString

/-!
# The address of the node (`net_helpers.c`)

`autodetect_ip_address` reads the routing table line by line and then looks for the address of the
interface that it found there.
-/

namespace PeerStreamer.NetHelpers

open CString

def IFNAMSIZ : ℕ := 16

/-- The four bytes of an IPv4 address, in network order. -/
structure InAddr where
  a : UInt8
  b : UInt8
  c : UInt8
  d : UInt8
  deriving DecidableEq, Repr

/-- A socket address of the family `AF_INET` or of another one. -/
inductive Sockaddr where
  | inet (sinAddr : InAddr)
  | other
  deriving DecidableEq, Repr

/-- `struct ifaddrs`; a pointer may be NULL. -/
structure Ifaddrs where
  ifaName : Option (List UInt8)
  ifaAddr : Option Sockaddr
  deriving DecidableEq, Repr

/-- What the system answers: the file with the routes and the list of the addresses, unless they
cannot be had.  The local array `ifc` is never written; it holds what the stack held. -/
structure Host where
  route : Option (List UInt8)
  ifaddr : Option (List Ifaddrs)
  ifc : List UInt8

/-! ## The code -/

/-- `strcpy` into an array of `room` bytes.  It returns the array, which is not NULL. -/
def strcpy (room : ℕ) (src : List UInt8) : Except Fault (Option (List UInt8)) :=
  if src.length < room then .ok (some src) else .error .outOfBounds

/-- A word that `sscanf` stores in an array of `room` bytes. -/
def storeWord (room : ℕ) (w : List UInt8) : Except Fault (List UInt8) :=
  if w.length < room then .ok w else .error .outOfBounds

/-- `sscanf(line, "%s\t%s", iface, dst)`, with `iface` as it was before: what is returned, and
`iface` as it is then.  The tab of the format skips any white space. -/
def sscanf (line iface : List UInt8) : Except Fault (Int × List UInt8) :=
  match word line with
  | none => .ok (-1, iface)
  | some (w, rest) => do
    let iface ← storeWord IFNAMSIZ w
    match word rest with
    | none => return (1, iface)
    | some (w, _) =>
      let _dst ← storeWord 32 w
      return (2, iface)

/-- The loop: `iface` at its end. -/
def routeLoop (ifc : List UInt8) : ℕ → List UInt8 → List UInt8 → Except Fault (List UInt8)
  | 0, _, _ => .error .outOfFuel
  | fuel + 1, iface, file =>
    match fgets 127 file with
    | none => .ok iface
    | some (line, rest) => do
      if feof 127 file then return iface
      let (n, iface) ← sscanf (ofBuffer line) iface
      if n = 2 then
        let dst ← strcpy 32 (bytes "00000000")
        -- `!strcpy(...)`
        if dst.isNone then return ofBuffer ifc
        routeLoop ifc fuel iface rest
      else routeLoop ifc fuel iface rest

/-- `inet_ntop` into an array of `size` bytes. -/
def inetNtop (addr : InAddr) (size : ℕ) : Option (List UInt8) :=
  let text := [addr.a, addr.b, addr.c, addr.d].map fun x => bytes (toString x.toNat)
  let text := (text.intersperse (bytes ".")).flatten
  if text.length < size then some text else none

/-- The loop over the addresses. -/
def findAddr (iface : List UInt8) : List Ifaddrs → Option (List UInt8)
  | [] => none
  | ifa :: rest =>
    match ifa.ifaAddr, ifa.ifaName with
    | some (.inet sinAddr), some name =>
      if name = iface then inetNtop sinAddr 127 else findAddr iface rest
    | _, _ => findAddr iface rest

/-- The text of the address, or NULL. -/
def autodetectIpAddress (h : Host) : Except Fault (Option (List UInt8)) :=
  match h.route with
  | none => .ok none
  | some file => do
    let iface ← routeLoop h.ifc (file.length + 1) [] file
    if iface = [] then return none
    match h.ifaddr with
    | none => return none
    | some ifaddr => return findAddr iface ifaddr

end PeerStreamer.NetHelpers
