/-! The SHA-256 digest of a text. -/

namespace PipelineLang

structure Digest where
  bytes : List UInt8
  length_bytes : bytes.length = 32
deriving DecidableEq

namespace Digest

def hex (d : Digest) : String :=
  String.ofList (d.bytes.flatMap fun b => [Nat.digitChar (b.toNat / 16),
    Nat.digitChar (b.toNat % 16)])

instance : Coe Digest String := ⟨hex⟩

theorem isAlphanum_of_mem_hex {d : Digest} {c : Char} (h : c ∈ d.hex.toList) :
    c.isAlphanum = true := by
  have hdigit : ∀ m < 16, (Nat.digitChar m).isAlphanum = true := by decide
  rw [hex, String.toList_ofList, List.mem_flatMap] at h
  obtain ⟨b, -, hc⟩ := h
  have hb := b.toNat_lt
  simp only [List.mem_cons, List.not_mem_nil, or_false] at hc
  rcases hc with rfl | rfl
  · exact hdigit _ (by omega)
  · exact hdigit _ (by omega)

end Digest

namespace Sha256

private def roundConstants : List UInt32 :=
  [0x428a2f98, 0x71374491, 0xb5c0fbcf, 0xe9b5dba5, 0x3956c25b, 0x59f111f1, 0x923f82a4, 0xab1c5ed5,
   0xd807aa98, 0x12835b01, 0x243185be, 0x550c7dc3, 0x72be5d74, 0x80deb1fe, 0x9bdc06a7, 0xc19bf174,
   0xe49b69c1, 0xefbe4786, 0x0fc19dc6, 0x240ca1cc, 0x2de92c6f, 0x4a7484aa, 0x5cb0a9dc, 0x76f988da,
   0x983e5152, 0xa831c66d, 0xb00327c8, 0xbf597fc7, 0xc6e00bf3, 0xd5a79147, 0x06ca6351, 0x14292967,
   0x27b70a85, 0x2e1b2138, 0x4d2c6dfc, 0x53380d13, 0x650a7354, 0x766a0abb, 0x81c2c92e, 0x92722c85,
   0xa2bfe8a1, 0xa81a664b, 0xc24b8b70, 0xc76c51a3, 0xd192e819, 0xd6990624, 0xf40e3585, 0x106aa070,
   0x19a4c116, 0x1e376c08, 0x2748774c, 0x34b0bcb5, 0x391c0cb3, 0x4ed8aa4a, 0x5b9cca4f, 0x682e6ff3,
   0x748f82ee, 0x78a5636f, 0x84c87814, 0x8cc70208, 0x90befffa, 0xa4506ceb, 0xbef9a3f7, 0xc67178f2]

/-- The eight words that are carried from block to block. -/
structure Chain where
  a : UInt32
  b : UInt32
  c : UInt32
  d : UInt32
  e : UInt32
  f : UInt32
  g : UInt32
  h : UInt32

private def initialChain : Chain :=
  ⟨0x6a09e667, 0xbb67ae85, 0x3c6ef372, 0xa54ff53a, 0x510e527f, 0x9b05688c, 0x1f83d9ab, 0x5be0cd19⟩

private def rotateRight (x : UInt32) (n : UInt32) : UInt32 := (x >>> n) ||| (x <<< (32 - n))

/-- The bytes, a one bit, zeros up to eight bytes before the end of a block, and the length in
bits. -/
private def padded (bytes : List UInt8) : List UInt8 :=
  let n := bytes.length
  let zeros := (119 - n % 64) % 64
  let bits := n * 8
  bytes ++ 0x80 :: List.replicate zeros 0
    ++ (List.range 8).map fun i => UInt8.ofNat (bits / Nat.pow 256 (7 - i))

private def words : List UInt8 → List UInt32
  | a :: b :: c :: d :: rest =>
    ((a.toUInt32 <<< 24) ||| (b.toUInt32 <<< 16) ||| (c.toUInt32 <<< 8) ||| d.toUInt32) ::
      words rest
  | _ => []

/-- The words of a block in reverse, with the next one in front. -/
private def extend (ws : List UInt32) : List UInt32 :=
  let x := ws.getD 14 0
  let y := ws.getD 1 0
  let s0 := rotateRight x 7 ^^^ rotateRight x 18 ^^^ (x >>> 3)
  let s1 := rotateRight y 17 ^^^ rotateRight y 19 ^^^ (y >>> 10)
  (ws.getD 15 0 + s0 + ws.getD 6 0 + s1) :: ws

private def schedule (block : List UInt32) : List UInt32 :=
  ((List.range 48).foldl (fun ws _ => extend ws) block.reverse).reverse

private def round (s : Chain) (k w : UInt32) : Chain :=
  let s1 := rotateRight s.e 6 ^^^ rotateRight s.e 11 ^^^ rotateRight s.e 25
  let choice := (s.e &&& s.f) ^^^ (~~~s.e &&& s.g)
  let t1 := s.h + s1 + choice + k + w
  let s0 := rotateRight s.a 2 ^^^ rotateRight s.a 13 ^^^ rotateRight s.a 22
  let majority := (s.a &&& s.b) ^^^ (s.a &&& s.c) ^^^ (s.b &&& s.c)
  ⟨t1 + (s0 + majority), s.a, s.b, s.c, s.d + t1, s.e, s.f, s.g⟩

private def absorb (s : Chain) (block : List UInt32) : Chain :=
  let t := (roundConstants.zip (schedule block)).foldl (fun t (k, w) => round t k w) s
  ⟨s.a + t.a, s.b + t.b, s.c + t.c, s.d + t.d, s.e + t.e, s.f + t.f, s.g + t.g, s.h + t.h⟩

private def absorbAll (s : Chain) (ws : List UInt32) : Chain :=
  if ws.length < 16 then s else absorbAll (absorb s (ws.take 16)) (ws.drop 16)
termination_by ws.length

private def wordBytes (w : UInt32) : List UInt8 :=
  [(w >>> 24).toUInt8, (w >>> 16).toUInt8, (w >>> 8).toUInt8, w.toUInt8]

def digest (bytes : List UInt8) : Digest :=
  let s := absorbAll initialChain (words (padded bytes))
  ⟨[s.a, s.b, s.c, s.d, s.e, s.f, s.g, s.h].flatMap wordBytes, rfl⟩

def ofText (text : String) : Digest := digest text.toUTF8.toList

end Sha256

end PipelineLang
