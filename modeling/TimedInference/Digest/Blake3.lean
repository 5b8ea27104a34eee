/-!
# BLAKE3

The BLAKE3 digest of a byte sequence. Bytes are taken in chunks of 1024 and chunks in blocks of 64.
Each chunk, and each pair of neighbouring subtrees of chunks, is compressed to eight words; the left
subtree of a pair is the largest complete one. The compression at the root gives the digest.
-/

namespace TimedInference.Blake3

/-- Eight words that stand for all input below a node of the tree. -/
abbrev ChainingValue := Vector UInt32 8

/-- The sixteen words of a block, or of the state of a compression. -/
abbrev Block := Vector UInt32 16

/-- The initial chaining value. -/
def initial : ChainingValue :=
  #v[0x6A09E667, 0xBB67AE85, 0x3C6EF372, 0xA54FF53A, 0x510E527F, 0x9B05688C, 0x1F83D9AB, 0x5BE0CD19]

/-- Marks the first block of a chunk. -/
def chunkStart : UInt32 := 1

/-- Marks the last block of a chunk. -/
def chunkEnd : UInt32 := 2

/-- Marks a compression of two chaining values. -/
def parent : UInt32 := 4

/-- Marks the last compression of all. -/
def root : UInt32 := 8

/-- The bytes in a block. -/
def blockBytes : Nat := 64

/-- The bytes in a chunk. -/
def chunkBytes : Nat := 1024

/-! ## Compression -/

/-- Rotates the bits of a word to the right. -/
def rotateRight (x n : UInt32) : UInt32 := (x >>> n) ||| (x <<< (32 - n))

/-- Mixes two words of a message into four words of the state. -/
def quarter (s : Block) (a b c d : Fin 16) (x y : UInt32) : Block :=
  let s := s.set a (s[a] + s[b] + x)
  let s := s.set d (rotateRight (s[d] ^^^ s[a]) 16)
  let s := s.set c (s[c] + s[d])
  let s := s.set b (rotateRight (s[b] ^^^ s[c]) 12)
  let s := s.set a (s[a] + s[b] + y)
  let s := s.set d (rotateRight (s[d] ^^^ s[a]) 8)
  let s := s.set c (s[c] + s[d])
  s.set b (rotateRight (s[b] ^^^ s[c]) 7)

/-- Mixes a message into the columns and then into the diagonals of the state. -/
def round (s m : Block) : Block :=
  let s := quarter s 0 4 8 12 m[0] m[1]
  let s := quarter s 1 5 9 13 m[2] m[3]
  let s := quarter s 2 6 10 14 m[4] m[5]
  let s := quarter s 3 7 11 15 m[6] m[7]
  let s := quarter s 0 5 10 15 m[8] m[9]
  let s := quarter s 1 6 11 12 m[10] m[11]
  let s := quarter s 2 7 8 13 m[12] m[13]
  quarter s 3 4 9 14 m[14] m[15]

/-- Reorders a message between rounds. -/
def permute (m : Block) : Block :=
  #v[m[2], m[6], m[3], m[10], m[7], m[0], m[4], m[13], m[1], m[11], m[12], m[5], m[9], m[14], m[15],
    m[8]]

/-- A number of rounds, with the message reordered after each. -/
def rounds : Nat → Block → Block → Block
  | 0, s, _ => s
  | n + 1, s, m => rounds n (round s m) (permute m)

/-- What a compression is given. -/
structure Compression where
  chaining : ChainingValue
  block : Block
  counter : UInt64
  length : UInt32
  flags : UInt32

/-- The chaining value of a compression. -/
def Compression.output (c : Compression) : ChainingValue :=
  let h := c.chaining
  let start : Block :=
    #v[h[0], h[1], h[2], h[3], h[4], h[5], h[6], h[7], initial[0], initial[1], initial[2], initial[3],
      c.counter.toUInt32, (c.counter >>> 32).toUInt32, c.length, c.flags]
  let s := rounds 7 start c.block
  #v[s[0] ^^^ s[8], s[1] ^^^ s[9], s[2] ^^^ s[10], s[3] ^^^ s[11], s[4] ^^^ s[12], s[5] ^^^ s[13],
    s[6] ^^^ s[14], s[7] ^^^ s[15]]

/-! ## Chunks -/

/-- The word whose least byte comes first. -/
def wordAt (bytes : ByteArray) (start stop i : Nat) : UInt32 :=
  (List.range 4).foldr (fun k w =>
    let j := start + 4 * i + k
    (w <<< 8) ||| (if j < stop then (bytes.data.getD j 0).toUInt32 else 0)) 0

/-- The block of the bytes in a range, with zeros after them. -/
def blockOf (bytes : ByteArray) (start stop : Nat) : Block :=
  Vector.ofFn fun i => wordAt bytes start stop i

/-- The last compression of a chunk, which holds the bytes in a range; the bound is on the number of
blocks left. -/
def lastOfChunk (bytes : ByteArray) (counter : UInt64) :
    Nat → Nat → Nat → UInt32 → ChainingValue → Compression
  | fuel, start, stop, flags, h =>
    let length := min blockBytes (stop - start)
    let c : Compression :=
      ⟨h, blockOf bytes start (start + length), counter, UInt32.ofNat length, flags⟩
    match fuel with
    | 0 => { c with flags := flags ||| chunkEnd }
    | fuel + 1 =>
      if start + length < stop then
        lastOfChunk bytes counter fuel (start + length) stop 0 c.output
      else { c with flags := flags ||| chunkEnd }

/-! ## The tree -/

/-- The bytes of the left subtree of a range of more than one chunk. -/
def leftBytes (length : Nat) : Nat := chunkBytes * Nat.pow 2 ((length - 1) / chunkBytes).log2

/-- The last compression for a range of bytes that begins with the given chunk; the bound is on the
number of levels left. -/
def lastOfTree (bytes : ByteArray) : Nat → Nat → Nat → Nat → Compression
  | fuel, index, start, stop =>
    let leaf := lastOfChunk bytes (UInt64.ofNat index) 16 start stop chunkStart initial
    match fuel with
    | 0 => leaf
    | fuel + 1 =>
      if stop - start ≤ chunkBytes then leaf
      else
        let middle := start + leftBytes (stop - start)
        let left := (lastOfTree bytes fuel index start middle).output
        let right := (lastOfTree bytes fuel (index + (middle - start) / chunkBytes) middle stop).output
        ⟨initial, (left ++ right), 0, UInt32.ofNat blockBytes, parent⟩

/-- The digest of a byte sequence. -/
def digest (bytes : ByteArray) : ChainingValue :=
  let c := lastOfTree bytes 64 0 0 bytes.size
  { c with flags := c.flags ||| root }.output

/-! ## Text -/

/-- The two digits of a byte in base sixteen. -/
def byteHex (n : Nat) : List Char := [Nat.digitChar (n / 16), Nat.digitChar (n % 16)]

/-- The digits of a word, least byte first. -/
def wordHex (w : UInt32) : List Char :=
  (List.range 4).flatMap fun k => byteHex (w.toNat / Nat.pow 256 k % 256)

/-- The digest of a text's bytes, in base sixteen. -/
def hex (text : String) : String :=
  String.ofList ((digest text.toUTF8).toList.flatMap wordHex)

end TimedInference.Blake3
