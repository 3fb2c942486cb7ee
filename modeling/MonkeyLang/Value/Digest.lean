/-!
# Digests of byte strings

The 64-bit FNV-1a digest: for each byte, exclusive or into the low end and then multiply by the
prime, modulo 2⁶⁴.
-/

namespace MonkeyLang

/-- The digest of no bytes. -/
def digestBasis : UInt64 := 0xcbf29ce484222325

/-- The multiplier of the digest, 2⁴⁰ + 435. -/
def digestPrime : UInt64 := 0x100000001b3

/-- The digest after one more byte. -/
def digestStep (digest : UInt64) (byte : UInt8) : UInt64 :=
  (digest ^^^ byte.toUInt64) * digestPrime

/-- The FNV-1a digest of a byte string. -/
def fnv1a (bytes : List UInt8) : UInt64 :=
  bytes.foldl digestStep digestBasis

end MonkeyLang
