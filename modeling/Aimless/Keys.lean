import Aimless.Protocol

/-!
# Addresses

`yggdrasil_address` of `keys.py`: the address that the network gives to a node key.  The bits of the
key are inverted; the leading ones of the result are counted, the zero after them is dropped, and
the bits that follow fill the address.
-/

namespace Aimless

open Python (Str Exc)

namespace IPv6

/-- `"%x" % n`. -/
def hextet (n : ℕ) : Str :=
  if n = 0 then Python.str ['0'] else Python.str ((Nat.digits 16 n).reverse.map Hex.digit)

/-- The run of zeros that the loop of `_compress_hextets` is in, and the longest so far. -/
structure ZeroRun where
  start : ℕ := 0
  len : ℕ := 0
  bestStart : ℕ := 0
  bestLen : ℕ := 0

def ZeroRun.next (run : ZeroRun) (e : Str × ℕ) : ZeroRun :=
  if e.1 = Python.str ['0'] then
    let start := if run.len = 0 then e.2 else run.start
    let len := run.len + 1
    if run.bestLen < len then ⟨start, len, start, len⟩
    else { run with start, len }
  else { run with len := 0 }

/-- `_compress_hextets`: the first of the longest runs of zeros, of two at least, is left out. -/
def compressHextets (hextets : List Str) : List Str :=
  let run := hextets.zipIdx.foldl ZeroRun.next {}
  if 1 < run.bestLen then
    let stop := run.bestStart + run.bestLen
    let tail := if stop = hextets.length then [[]] else hextets.drop stop
    let short := hextets.take run.bestStart ++ [] :: tail
    if run.bestStart = 0 then [] :: short else short
  else hextets

/-- `ipaddress.IPv6Address(addr).compressed`. -/
def compressed (addr : Bytes) : Str :=
  let hextets := (List.range 8).map fun i =>
    hextet ((addr.getD (2 * i) 0).toNat * 256 + (addr.getD (2 * i + 1) 0).toNat)
  (Python.str [':']).intercalate (compressHextets hextets)

end IPv6

/-- The variables of the loop over the bits. -/
structure AddressLoop where
  done : Bool := false
  ones : ℕ := 0
  bits : ℕ := 0
  nbits : ℕ := 0
  temp : List ℕ := []
  deriving DecidableEq, Repr

/-- The bit of a buffer with an index, the most significant of a byte first. -/
def bitAt (buf : Bytes) (idx : ℕ) : ℕ :=
  ((buf.getD (idx / 8) 0).toNat &&& (0x80 >>> (idx % 8))) >>> (7 - idx % 8)

def AddressLoop.next (s : AddressLoop) (bit : ℕ) : AddressLoop :=
  if s.done = false ∧ bit ≠ 0 then { s with ones := (s.ones + 1) &&& 0xFF }
  else if s.done = false ∧ bit = 0 then { s with done := true }
  else
    let bits := ((s.bits <<< 1) ||| bit) &&& 0xFF
    let nbits := s.nbits + 1
    if nbits = 8 then { s with bits, nbits := 0, temp := s.temp ++ [bits] }
    else { s with bits, nbits }

/-- The 16 bytes of the address. -/
def addressBytes (pubkey : Bytes) : Bytes :=
  let buf := pubkey.map (· ^^^ 0xFF)
  let s : AddressLoop := (List.range (8 * buf.length)).foldl (fun s idx => s.next (bitAt buf idx)) {}
  let addr := ((List.replicate 16 0).set 0 2).set 1 (UInt8.ofNat s.ones)
  s.temp.zipIdx.foldl
    (fun addr e => if 2 + e.2 < 16 then addr.set (2 + e.2) (UInt8.ofNat e.1) else addr) addr

def yggdrasilAddress (pubkey : Bytes) : Except Exc Str :=
  if pubkey.length ≠ 32 then .error .valueError
  else .ok (IPv6.compressed (addressBytes pubkey))

end Aimless
