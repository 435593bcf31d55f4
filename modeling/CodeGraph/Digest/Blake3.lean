/-!
# BLAKE3

The digest of a byte string is a binary tree of compressions. The bytes are cut into chunks of 1024
bytes, and the left part of every inner node holds the greatest power of two of chunks that leaves
at least one for the right part. The last compression is marked as the root.
-/

namespace CodeGraph.Blake3

/-- Eight words that sum up all that comes before. -/
abbrev Chaining := Vector UInt32 8

/-- Sixteen words. -/
abbrev Words := Vector UInt32 16

/-- The initial words. -/
def initial : Chaining :=
  #v[0x6a09e667, 0xbb67ae85, 0x3c6ef372, 0xa54ff53a, 0x510e527f, 0x9b05688c, 0x1f83d9ab, 0x5be0cd19]

/-- A word rotated to the right. -/
def rotate (x : UInt32) (n : UInt32) : UInt32 := (x >>> n) ||| (x <<< (32 - n))

/-- Mix two words of the message into four words of the state. -/
def mix (s : Words) (a b c d : Fin 16) (x y : UInt32) : Words :=
  let s := s.set a (s[a] + s[b] + x)
  let s := s.set d (rotate (s[d] ^^^ s[a]) 16)
  let s := s.set c (s[c] + s[d])
  let s := s.set b (rotate (s[b] ^^^ s[c]) 12)
  let s := s.set a (s[a] + s[b] + y)
  let s := s.set d (rotate (s[d] ^^^ s[a]) 8)
  let s := s.set c (s[c] + s[d])
  s.set b (rotate (s[b] ^^^ s[c]) 7)

/-- Mix a message into the columns of the state, and then into its diagonals. -/
def round (s m : Words) : Words :=
  let s := mix s 0 4 8 12 m[0] m[1]
  let s := mix s 1 5 9 13 m[2] m[3]
  let s := mix s 2 6 10 14 m[4] m[5]
  let s := mix s 3 7 11 15 m[6] m[7]
  let s := mix s 0 5 10 15 m[8] m[9]
  let s := mix s 1 6 11 12 m[10] m[11]
  let s := mix s 2 7 8 13 m[12] m[13]
  mix s 3 4 9 14 m[14] m[15]

/-- The order of the message words in the next round. -/
def permute (m : Words) : Words :=
  #v[m[2], m[6], m[3], m[10], m[7], m[0], m[4], m[13], m[1], m[11], m[12], m[5], m[9], m[14], m[15],
    m[8]]

/-- Some rounds. -/
def rounds : Nat → Words → Words → Words
  | 0, s, _ => s
  | n + 1, s, m => rounds n (round s m) (permute m)

/-- The first block of a chunk. -/
def chunkStart : UInt32 := 1

/-- The last block of a chunk. -/
def chunkEnd : UInt32 := 2

/-- An inner node of the tree. -/
def parent : UInt32 := 4

/-- The last compression. -/
def root : UInt32 := 8

/-- A compression that is still to be done. -/
structure Block where
  chaining : Chaining
  words : Words
  /-- The number of chunks before this one. -/
  counter : Nat
  /-- The number of bytes of the block. -/
  length : Nat
  flags : UInt32

/-- The chaining value of a block, with further flags. -/
def Block.compress (b : Block) (flags : UInt32) : Chaining :=
  let h := b.chaining
  let s : Words :=
    #v[h[0], h[1], h[2], h[3], h[4], h[5], h[6], h[7], initial[0], initial[1], initial[2],
      initial[3], b.counter.toUInt32, (b.counter >>> 32).toUInt32, b.length.toUInt32,
      b.flags ||| flags]
  let s := rounds 7 s b.words
  #v[s[0] ^^^ s[8], s[1] ^^^ s[9], s[2] ^^^ s[10], s[3] ^^^ s[11], s[4] ^^^ s[12], s[5] ^^^ s[13],
    s[6] ^^^ s[14], s[7] ^^^ s[15]]

/-- The word of four bytes, the lowest first. -/
def wordAt (bytes : Array UInt8) (i : Nat) : UInt32 :=
  (bytes.getD i 0).toUInt32 ||| ((bytes.getD (i + 1) 0).toUInt32 <<< 8) |||
    ((bytes.getD (i + 2) 0).toUInt32 <<< 16) ||| ((bytes.getD (i + 3) 0).toUInt32 <<< 24)

/-- The words of at most sixty-four bytes; zeros follow the last byte. -/
def wordsOf (bytes : List UInt8) : Words :=
  let a := bytes.toArray
  Vector.ofFn fun i => wordAt a (4 * i)

/-- The last block of a chunk, after the chaining values of the blocks before it. -/
def chunkFrom (counter : Nat) : Nat → Chaining → UInt32 → List UInt8 → Block
  | 0, chaining, flags, bytes =>
    ⟨chaining, wordsOf (bytes.take 64), counter, (bytes.take 64).length, flags ||| chunkEnd⟩
  | fuel + 1, chaining, flags, bytes =>
    if bytes.length ≤ 64 then ⟨chaining, wordsOf bytes, counter, bytes.length, flags ||| chunkEnd⟩
    else
      let b : Block := ⟨chaining, wordsOf (bytes.take 64), counter, 64, flags⟩
      chunkFrom counter fuel (b.compress 0) 0 (bytes.drop 64)

/-- A chunk of at most 1024 bytes, which are sixteen blocks. -/
def chunk (counter : Nat) (bytes : List UInt8) : Block :=
  chunkFrom counter 15 initial chunkStart bytes

/-- An inner node above two chaining values. -/
def node (left right : Chaining) : Block :=
  ⟨initial, left ++ right, 0, 64, parent⟩

/-- The number of chunks in the left part of a tree of more than one chunk. -/
def leftChunks (chunks : Nat) : Nat := 1 <<< Nat.log2 (chunks - 1)

/-- The top of a tree over some bytes, before which there are `counter` chunks. Each part is
smaller than the whole by a chunk at least, so the number of chunks bounds the height. -/
def tree : Nat → Nat → List UInt8 → Block
  | 0, counter, bytes => chunk counter bytes
  | fuel + 1, counter, bytes =>
    let chunks := (bytes.length + 1023) / 1024
    if chunks ≤ 1 then chunk counter bytes
    else
      let left := leftChunks chunks
      node ((tree fuel counter (bytes.take (1024 * left))).compress 0)
        ((tree fuel (counter + left) (bytes.drop (1024 * left))).compress 0)

/-- The eight words of a digest. -/
def digest (bytes : List UInt8) : Chaining :=
  (tree (bytes.length / 1024 + 1) 0 bytes).compress root

/-- A hexadecimal digit, in lower case. -/
def hexDigit (n : UInt32) : Char := Nat.digitChar n.toNat

/-- The digits of a word, byte by byte from the lowest. -/
def wordHex (w : UInt32) : List Char :=
  [w >>> 4, w, w >>> 12, w >>> 8, w >>> 20, w >>> 16, w >>> 28, w >>> 24].map fun x =>
    hexDigit (x &&& 15)

/-- The digest of a text in UTF-8, in hexadecimal digits. -/
def textDigest (text : String) : String :=
  String.ofList ((digest text.toUTF8.data.toList).toList.flatMap wordHex)

end CodeGraph.Blake3
