/-! The BLAKE3 hash of an octet sequence, as 32 octets in hexadecimal. Chunks of 1024 octets are
compressed block by block, and their chaining values are joined in a binary tree whose left branch is
the largest complete one. -/

namespace WireLayout.Blake3

abbrev Words (n : Nat) := Vector UInt32 n

def initial : Words 8 :=
  #v[0x6A09E667, 0xBB67AE85, 0x3C6EF372, 0xA54FF53A, 0x510E527F, 0x9B05688C, 0x1F83D9AB, 0x5BE0CD19]

def chunkStart : UInt32 := 1
def chunkEnd : UInt32 := 2
def parentNode : UInt32 := 4
def rootNode : UInt32 := 8

def rotateRight (x : UInt32) (n : UInt32) : UInt32 := (x >>> n) ||| (x <<< (32 - n))

/-- Mixes two message words into a column or a diagonal of the state. -/
def quarterRound (v : Words 16) (a b c d : Fin 16) (x y : UInt32) : Words 16 :=
  let v := v.set a (v[a] + v[b] + x)
  let v := v.set d (rotateRight (v[d] ^^^ v[a]) 16)
  let v := v.set c (v[c] + v[d])
  let v := v.set b (rotateRight (v[b] ^^^ v[c]) 12)
  let v := v.set a (v[a] + v[b] + y)
  let v := v.set d (rotateRight (v[d] ^^^ v[a]) 8)
  let v := v.set c (v[c] + v[d])
  v.set b (rotateRight (v[b] ^^^ v[c]) 7)

def round (v m : Words 16) : Words 16 :=
  let v := quarterRound v 0 4 8 12 m[0] m[1]
  let v := quarterRound v 1 5 9 13 m[2] m[3]
  let v := quarterRound v 2 6 10 14 m[4] m[5]
  let v := quarterRound v 3 7 11 15 m[6] m[7]
  let v := quarterRound v 0 5 10 15 m[8] m[9]
  let v := quarterRound v 1 6 11 12 m[10] m[11]
  let v := quarterRound v 2 7 8 13 m[12] m[13]
  quarterRound v 3 4 9 14 m[14] m[15]

/-- The order in which a round takes the message words of the round before it. -/
def permute (m : Words 16) : Words 16 :=
  #v[m[2], m[6], m[3], m[10], m[7], m[0], m[4], m[13], m[1], m[11], m[12], m[5], m[9], m[14], m[15], m[8]]

def rounds : Nat → Words 16 → Words 16 → Words 16
  | 0, v, _ => v
  | n + 1, v, m => rounds n (round v m) (permute m)

structure Node where
  chaining : Words 8
  block : Words 16
  counter : Nat
  length : Nat
  flags : UInt32

def Node.output (node : Node) (flags : UInt32) : Words 8 :=
  let h := node.chaining
  let low := node.counter.toUInt32
  let high := (node.counter >>> 32).toUInt32
  let v : Words 16 := #v[h[0], h[1], h[2], h[3], h[4], h[5], h[6], h[7],
    initial[0], initial[1], initial[2], initial[3], low, high, node.length.toUInt32, node.flags ||| flags]
  let v := rounds 7 v node.block
  Vector.ofFn fun i : Fin 8 => v[i.val] ^^^ v[i.val + 8]

def Node.value (node : Node) : Words 8 := node.output 0

def littleEndian (bytes : List UInt8) : UInt32 :=
  bytes.foldr (fun b word => word * 256 + b.toUInt32) 0

/-- The sixteen words of a block, the octets it lacks taken as zero. -/
def blockWords (bytes : List UInt8) : Words 16 :=
  Vector.ofFn fun i : Fin 16 => littleEndian ((bytes.drop (4 * i.val)).take 4)

/-- Splits a sequence into pieces of a size; the last may be shorter. The fuel is its length. -/
def pieces (size : Nat) : Nat → List UInt8 → List (List UInt8)
  | 0, _ => []
  | fuel + 1, bytes => if bytes.isEmpty then [] else bytes.take size :: pieces size fuel (bytes.drop size)

/-- The last node of a chunk, its earlier blocks compressed in order. -/
def chunkNode (counter : Nat) : Words 8 → UInt32 → List (List UInt8) → Node
  | chaining, start, [] => ⟨chaining, blockWords [], counter, 0, start ||| chunkEnd⟩
  | chaining, start, [last] => ⟨chaining, blockWords last, counter, last.length, start ||| chunkEnd⟩
  | chaining, start, block :: rest =>
    chunkNode counter (Node.value ⟨chaining, blockWords block, counter, 64, start⟩) 0 rest

def chunk (counter : Nat) (bytes : List UInt8) : Node :=
  chunkNode counter initial chunkStart (pieces 64 bytes.length bytes)

def parent (left right : Node) : Node := ⟨initial, left.value ++ right.value, 0, 64, parentNode⟩

def leftSize (n : Nat) : Nat := 1 <<< (n - 1).log2

/-- Joins the nodes of a sequence of chunks. The fuel is their number. -/
def tree : Nat → List Node → Node
  | _, [] => chunk 0 []
  | _, [node] => node
  | 0, node :: _ => node
  | fuel + 1, nodes =>
    let left := leftSize nodes.length
    parent (tree fuel (nodes.take left)) (tree fuel (nodes.drop left))

def root (bytes : List UInt8) : Node :=
  let nodes := (pieces 1024 bytes.length bytes).zipIdx.map fun (piece, i) => chunk i piece
  tree nodes.length nodes

def hexText (n : Nat) : List Char :=
  let digit (d : Nat) : Char := Char.ofNat (if d < 10 then 48 + d else 87 + d)
  [digit (n / 16), digit (n % 16)]

def wordOctets (word : UInt32) : List Nat :=
  let n := word.toNat
  [n % 256, n / 256 % 256, n / 65536 % 256, n / 16777216]

def hexDigest (bytes : List UInt8) : String :=
  String.ofList (((root bytes).output rootNode).toList.flatMap fun word => (wordOctets word).flatMap hexText)

end WireLayout.Blake3
