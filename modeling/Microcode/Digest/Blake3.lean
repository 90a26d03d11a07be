import Microcode.Hex
import Microcode.Numeric.Binary32

/-!
The BLAKE3 hash of a sequence of bytes.

The bytes are divided into chunks, each chunk into blocks.  Blocks of a chunk are compressed one
after another; the results of the chunks are joined in pairs, and those in pairs again, until one
node is left, whose compression under the root flag is the hash.
-/

namespace Microcode
namespace Blake3

abbrev Words := Array Lane

def initialValue : Words :=
  #[0x6a09e667#32, 0xbb67ae85#32, 0x3c6ef372#32, 0xa54ff53a#32,
    0x510e527f#32, 0x9b05688c#32, 0x1f83d9ab#32, 0x5be0cd19#32]

def word (w : Words) (i : Nat) : Lane := w.getD i 0#32

/-- One mixing step on four words of the state. -/
def quarter (a b c d : Nat) (x y : Lane) (s : Words) : Words :=
  let s := s.setIfInBounds a (word s a + word s b + x)
  let s := s.setIfInBounds d ((word s d ^^^ word s a).rotateRight 16)
  let s := s.setIfInBounds c (word s c + word s d)
  let s := s.setIfInBounds b ((word s b ^^^ word s c).rotateRight 12)
  let s := s.setIfInBounds a (word s a + word s b + y)
  let s := s.setIfInBounds d ((word s d ^^^ word s a).rotateRight 8)
  let s := s.setIfInBounds c (word s c + word s d)
  s.setIfInBounds b ((word s b ^^^ word s c).rotateRight 7)

/-- Mixes the columns, then the diagonals. -/
def round (s m : Words) : Words :=
  let s := quarter 0 4 8 12 (word m 0) (word m 1) s
  let s := quarter 1 5 9 13 (word m 2) (word m 3) s
  let s := quarter 2 6 10 14 (word m 4) (word m 5) s
  let s := quarter 3 7 11 15 (word m 6) (word m 7) s
  let s := quarter 0 5 10 15 (word m 8) (word m 9) s
  let s := quarter 1 6 11 12 (word m 10) (word m 11) s
  let s := quarter 2 7 8 13 (word m 12) (word m 13) s
  quarter 3 4 9 14 (word m 14) (word m 15) s

def permutation : List Nat := [2, 6, 3, 10, 7, 0, 4, 13, 1, 11, 12, 5, 9, 14, 15, 8]

def permute (m : Words) : Words := (permutation.map (word m)).toArray

/-- Rounds, with the message permuted between them. -/
def rounds : Nat → Words → Words → Words
  | 0, s, _ => s
  | n + 1, s, m => rounds n (round s m) (permute m)

/-- What a compression is applied to. -/
structure Node where
  chain : Words
  block : Words
  counter : Nat
  length : Nat
  flags : Nat

def chunkStart : Nat := 1

def chunkEnd : Nat := 2

def parentFlag : Nat := 4

def rootFlag : Nat := 8

/-- Compresses a node to eight words; `extra` flags are added to its own. -/
def Node.compress (n : Node) (extra : Nat) : Words :=
  let start := n.chain ++ initialValue.extract 0 4 ++
    #[BitVec.ofNat 32 n.counter, BitVec.ofNat 32 (n.counter >>> 32), BitVec.ofNat 32 n.length,
      BitVec.ofNat 32 (n.flags ||| extra)]
  let s := rounds 7 start n.block
  ((List.range 8).map fun i => word s i ^^^ word s (i + 8)).toArray

/-- Divides a list into parts of `size`, of which there is at least one.  `fuel` bounds their
number. -/
def split {α : Type} (size : Nat) : (fuel : Nat) → List α → List (List α)
  | 0, l => [l]
  | fuel + 1, l => if l.length ≤ size then [l] else l.take size :: split size fuel (l.drop size)

/-- Sixteen little-endian words, filled with zeros. -/
def blockWords (bytes : List (BitVec 8)) : Words :=
  let b := bytes.toArray
  ((List.range 16).map fun i =>
    b.getD (4 * i + 3) 0 ++ b.getD (4 * i + 2) 0 ++ b.getD (4 * i + 1) 0 ++
      b.getD (4 * i) 0).toArray

/-- The last node of a chunk, from its blocks; `flags` are those of the next block. -/
def chunkNode (counter : Nat) : (chain : Words) → (flags : Nat) → List (List (BitVec 8)) → Node
  | chain, flags, [] => ⟨chain, blockWords [], counter, 0, flags ||| chunkEnd⟩
  | chain, flags, [b] => ⟨chain, blockWords b, counter, b.length, flags ||| chunkEnd⟩
  | chain, flags, b :: rest =>
    let n : Node := ⟨chain, blockWords b, counter, 64, flags⟩
    chunkNode counter (n.compress 0) 0 rest

def parent (left right : Node) : Node :=
  ⟨initialValue, left.compress 0 ++ right.compress 0, 0, 64, parentFlag⟩

/-- Joins neighbours; one that is left over stays as it is. -/
def pairs : List Node → List Node
  | a :: b :: rest => parent a b :: pairs rest
  | l => l

/-- Joins neighbours until one node is left, in at most `fuel` steps. -/
def root : (fuel : Nat) → List Node → Option Node
  | _, [n] => some n
  | 0, l => l.head?
  | fuel + 1, l => root fuel (pairs l)

/-- The 32 bytes of the hash in hexadecimal. -/
def digest (bytes : List (BitVec 8)) : String :=
  let chunks := split 1024 bytes.length bytes
  let nodes := chunks.zipIdx.map fun (c, i) =>
    chunkNode i initialValue chunkStart (split 64 c.length c)
  let final := ((root nodes.length nodes).map (Node.compress · rootFlag)).getD #[]
  String.join (final.toList.map fun w =>
    String.join ((List.range 4).map fun k => hexText 2 (w.extractLsb' (8 * k) 8).toNat))

end Blake3
end Microcode
