import CppSwc.Core.Rlp

/-!
# Block headers

`BlockHeader` of libethcore: decoding from a header or a whole block
(`populate`, `extractHeader`) and the two hashes the chain uses.  `hash` is the
hash of the header bytes as received, and `hashWithoutSeal` is recomputed from
the thirteen basic fields, so the seal fields do not enter it.

The primitives under the protocol code are collected in `Prims`: keccak, the
trie root of a list of items, and ECDSA of libdevcrypto over secp256k1.
-/

namespace CppSwc

/-- What the modelled code calls below itself. -/
structure Prims where
  /-- `sha3` of the bytes of an item. -/
  sha3 : Rlp → H256
  /-- `trieRootOver` of the items of a list, keyed by their index. -/
  trieRootOver : List Rlp → H256
  /-- `dev::sign` with the secret of the node named by the public key. -/
  sign : NodeID → H256 → Signature
  /-- `dev::verify`. -/
  verify : NodeID → Signature → H256 → Bool
  /-- The items that the payload of a string parses to. -/
  payload : Bytes → List Rlp

namespace Prims

/-- `EmptyTrie`, the hash of the encoded empty string. -/
def emptyTrie (P : Prims) : H256 := P.sha3 (.data [])

/-- `EmptyListSHA3`, the hash of the encoded empty list. -/
def emptyListSHA3 (P : Prims) : H256 := P.sha3 (.list [])

end Prims

/-- A populated `BlockHeader`. -/
structure BlockHeader where
  parentHash : H256
  sha3Uncles : H256
  author : BitVec 160
  stateRoot : H256
  transactionsRoot : H256
  receiptsRoot : H256
  logBloom : BitVec 2048
  difficulty : Nat
  number : Nat
  gasLimit : Nat
  gasUsed : Nat
  timestamp : Nat
  extraData : Bytes
  sealFields : List Rlp
  hash : H256
deriving DecidableEq

namespace BlockHeader

/-- `BlockHeader::populate`.  `none` is the exception for a malformed field. -/
def populate (P : Prims) (header : Rlp) : Option BlockHeader := do
  let field := header.item P.payload
  let parentHash ← (field 0).toHash 32
  let sha3Uncles ← (field 1).toHash 32
  let author ← (field 2).toHash 20
  let stateRoot ← (field 3).toHash 32
  let transactionsRoot ← (field 4).toHash 32
  let receiptsRoot ← (field 5).toHash 32
  let logBloom ← (field 6).toHash 256
  let difficulty ← (field 7).toInt 32
  let number ← (field 8).toPositiveInt64
  let gasLimit ← (field 9).toInt 32
  let gasUsed ← (field 10).toInt 32
  let timestamp ← (field 11).toPositiveInt64
  pure {
    parentHash, sha3Uncles, author, stateRoot, transactionsRoot, receiptsRoot, logBloom,
    difficulty, number, gasLimit, gasUsed, timestamp
    extraData := (field 12).toBytes
    sealFields := header.items.drop 13
    hash := P.sha3 header }

/-- `BlockHeader::extractHeader`: the header of a block, if header, transactions
and uncles are lists. -/
def extractHeader (P : Prims) (block : Rlp) : Option Rlp :=
  if block.isList && (block.item P.payload 0).isList && (block.item P.payload 1).isList
      && (block.item P.payload 2).isList then
    some (block.item P.payload 0)
  else
    none

/-- `BlockHeader(data, HeaderData)`. -/
def ofHeader (P : Prims) (header : Rlp) : Option BlockHeader := populate P header

/-- `BlockHeader(data)`, with the default `BlockData`. -/
def ofBlock (P : Prims) (block : Rlp) : Option BlockHeader :=
  (extractHeader P block).bind (populate P)

/-- The item `streamRLP` writes with `WithoutSeal`. -/
def rlpWithoutSeal (h : BlockHeader) : Rlp :=
  .list [.ofHash 32 h.parentHash, .ofHash 32 h.sha3Uncles, .ofHash 20 h.author,
    .ofHash 32 h.stateRoot, .ofHash 32 h.transactionsRoot, .ofHash 32 h.receiptsRoot,
    .ofHash 256 h.logBloom, .ofInt h.difficulty, .ofInt h.number, .ofInt h.gasLimit,
    .ofInt h.gasUsed, .ofInt h.timestamp, .data h.extraData]

/-- `hash(WithoutSeal)`. -/
def hashWithoutSeal (P : Prims) (h : BlockHeader) : H256 := P.sha3 h.rlpWithoutSeal

/-- The number is part of what `hashWithoutSeal` hashes. -/
theorem number_eq_of_rlpWithoutSeal {h h' : BlockHeader}
    (heq : h.rlpWithoutSeal = h'.rlpWithoutSeal) : h.number = h'.number := by
  simp only [rlpWithoutSeal, Rlp.list.injEq, List.cons.injEq] at heq
  exact Rlp.ofInt_injective heq.2.2.2.2.2.2.2.2.1

end BlockHeader

/-! ## An instance to evaluate on

The hash of a header is read off its number and its timestamp, and a signature is
the signer beside the hash.  As with the real primitives, the empty string and the
empty list have hashes of their own and the zero key verifies nothing. -/

/-- A field of a list, as a number. -/
def Rlp.numberAt (items : List Rlp) (i : Nat) : Nat := fromBigEndian (items.getD i .null).toBytes

/-- Primitives that evaluate. -/
def Prims.sample : Prims where
  sha3
    | .list [] => 2
    | .list items =>
        BitVec.ofNat 256 (4 + Rlp.numberAt items 8 * 2 ^ 64 + Rlp.numberAt items 11 * 2 ^ 128)
    | _ => 1
  trieRootOver items := BitVec.ofNat 256 (1 + items.length)
  sign id hash := BitVec.ofNat 520 (id.toNat % 2 ^ 264 * 2 ^ 256 + hash.toNat)
  verify id sig hash := id != 0 && sig == BitVec.ofNat 520 (id.toNat % 2 ^ 264 * 2 ^ 256 + hash.toNat)
  payload _ := []

/-- The header that `Rlp.sampleBlock` decodes to, with the given number and
timestamp. -/
def BlockHeader.sample (number timestamp : Nat) : BlockHeader :=
  let header : BlockHeader := {
    parentHash := 0
    sha3Uncles := Prims.sample.emptyListSHA3
    author := 0
    stateRoot := 0
    transactionsRoot := Prims.sample.emptyTrie
    receiptsRoot := Prims.sample.emptyTrie
    logBloom := 0
    difficulty := 1
    number := number
    gasLimit := 0
    gasUsed := 0
    timestamp := timestamp
    extraData := []
    sealFields := []
    hash := 0 }
  { header with hash := Prims.sample.sha3 header.rlpWithoutSeal }

/-- An empty block under such a header. -/
def Rlp.sampleBlock (number timestamp : Nat) : Rlp :=
  .list [(BlockHeader.sample number timestamp).rlpWithoutSeal, .list [], .list []]

end CppSwc
