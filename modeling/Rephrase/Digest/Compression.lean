/-!
The compression function of BLAKE3: sixteen words of state are mixed with sixteen words of message
in seven rounds.
-/

namespace Rephrase.Digest

/-- Eight words that stand for everything before. -/
abbrev Chaining := Vector UInt32 8

/-- Sixteen words: a message block, or the state while it is mixed. -/
abbrev Block := Vector UInt32 16

def initial : Chaining :=
  #v[0x6A09E667, 0xBB67AE85, 0x3C6EF372, 0xA54FF53A, 0x510E527F, 0x9B05688C, 0x1F83D9AB,
    0x5BE0CD19]

/-- Where each word of the next round's message comes from. -/
def permutation : Vector (Fin 16) 16 :=
  #v[2, 6, 3, 10, 7, 0, 4, 13, 1, 11, 12, 5, 9, 14, 15, 8]

def permute (m : Block) : Block :=
  permutation.map fun i => m[i]

def rotate (w : UInt32) (n : UInt32) : UInt32 :=
  (w >>> n) ||| (w <<< (32 - n))

/-- Mixes two message words into four words of the state. -/
def mix (s : Block) (a b c d : Fin 16) (x y : UInt32) : Block :=
  let s := s.set a (s[a] + s[b] + x)
  let s := s.set d (rotate (s[d] ^^^ s[a]) 16)
  let s := s.set c (s[c] + s[d])
  let s := s.set b (rotate (s[b] ^^^ s[c]) 12)
  let s := s.set a (s[a] + s[b] + y)
  let s := s.set d (rotate (s[d] ^^^ s[a]) 8)
  let s := s.set c (s[c] + s[d])
  s.set b (rotate (s[b] ^^^ s[c]) 7)

def round (s m : Block) : Block :=
  -- The columns of the state as a square of four by four words.
  let s := mix s 0 4 8 12 m[0] m[1]
  let s := mix s 1 5 9 13 m[2] m[3]
  let s := mix s 2 6 10 14 m[4] m[5]
  let s := mix s 3 7 11 15 m[6] m[7]
  -- Its diagonals.
  let s := mix s 0 5 10 15 m[8] m[9]
  let s := mix s 1 6 11 12 m[10] m[11]
  let s := mix s 2 7 8 13 m[12] m[13]
  mix s 3 4 9 14 m[14] m[15]

/-- Some rounds, each with the message permuted once more. -/
def rounds : Nat → Block → Block → Block
  | 0, s, _ => s
  | n + 1, s, m => rounds n (round s m) (permute m)

/-- What is compressed: a block that follows on a chaining value, its number of bytes, the number of
its chunk, and the marks that say where it stands. -/
structure Input where
  chaining : Chaining
  block : Block
  counter : Nat
  size : Nat
  marks : UInt32

def chunkStart : UInt32 := 1
def chunkEnd : UInt32 := 2
-- Two chaining values are joined.
def parent : UInt32 := 4
-- This is the last compression of all.
def root : UInt32 := 8

def compress (input : Input) : Chaining :=
  let h := input.chaining
  let start : Block :=
    #v[h[0], h[1], h[2], h[3], h[4], h[5], h[6], h[7], initial[0], initial[1], initial[2],
      initial[3], UInt32.ofNat input.counter, UInt32.ofNat (input.counter >>> 32),
      UInt32.ofNat input.size, input.marks]
  let s := rounds 7 start input.block
  -- The digest is never longer than eight words, so only the first half of the output is made.
  #v[s[0] ^^^ s[8], s[1] ^^^ s[9], s[2] ^^^ s[10], s[3] ^^^ s[11], s[4] ^^^ s[12], s[5] ^^^ s[13],
    s[6] ^^^ s[14], s[7] ^^^ s[15]]

end Rephrase.Digest
