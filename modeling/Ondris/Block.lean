import Ondris.Lib.MerkleTree
import Ondris.Pow

/-!
# Transactions and blocks

From `transaction.rs`, `header.rs` and `block.rs`: the signed bytes and the
JSON text of a transaction, the header bytes under the proof of work, and the
Merkle root over the transaction hashes.
-/

namespace Ondris

open Encoding

/-! ## Transactions -/

structure Transaction where
  /-- The field `from`. -/
  fromKey : PublicKey
  /-- The field `to`. -/
  toAddr : Address
  amount : UInt64
  fee : UInt64
  accountNonce : UInt64
  signature : Option Signature
deriving DecidableEq

namespace Transaction

/-- Signed bytes: everything except the signature itself. -/
def signingBytes (tx : Transaction) : Bytes :=
  tx.fromKey.asBytes ++ tx.toAddr.asBytes ++ le64 tx.amount ++ le64 tx.fee ++ le64 tx.accountNonce

def isSignatureValid (K : Crates) (tx : Transaction) : Bool :=
  match tx.signature with
  | some sig => tx.fromKey.verify K tx.signingBytes sig
  | none => false

/-- The JSON of the `signature` field. -/
def signatureJson : Option Signature → Bytes
  | none => ascii "null"
  | some sig => ascii "\"" ++ hexEncode sig.asBytes ++ ascii "\""

/-- `serde_json::to_vec`: the fields in order, byte arrays as hexadecimal text. -/
def toJson (tx : Transaction) : Bytes :=
  ascii "\x7b\"from\":\"" ++ hexEncode tx.fromKey.asBytes ++
  ascii "\",\"to\":\"" ++ tx.toAddr.display ++
  ascii "\",\"amount\":" ++ decimal tx.amount.toNat ++
  ascii ",\"fee\":" ++ decimal tx.fee.toNat ++
  ascii ",\"account_nonce\":" ++ decimal tx.accountNonce.toNat ++
  ascii ",\"signature\":" ++ signatureJson tx.signature ++ ascii "\x7d"

def hash (K : Crates) (tx : Transaction) : Hash256 := Hash256.hash K tx.toJson

/-- The sender's account, `from.to_address()`. -/
def sender (K : Crates) (tx : Transaction) : Address := tx.fromKey.toAddress K

end Transaction

/-- `Vec<Transaction>`. An entry takes more than `2^7` bytes of memory and no
64-bit platform maps `2^60` bytes, so no vector reaches `2^53` entries. -/
abbrev TxVec := { txs : List Transaction // txs.length < 2 ^ 53 }

theorem TxVec.nil_lt : ([] : List Transaction).length < 2 ^ 53 := by decide

theorem TxVec.single_lt (tx : Transaction) : [tx].length < 2 ^ 53 := show 1 < 2 ^ 53 by decide

/-- No transactions. -/
def noTxs : TxVec := ⟨[], TxVec.nil_lt⟩

/-- A single transaction. -/
def TxVec.single (tx : Transaction) : TxVec := ⟨[tx], TxVec.single_lt tx⟩

/-! ## Headers -/

structure BlockHeader where
  height : UInt64
  prevHash : Hash256
  txRoot : Hash256
  timestamp : UInt64
  difficulty : UInt64
  miner : Address
  nonce : UInt64
deriving DecidableEq

namespace BlockHeader

/-- The header without the nonce, which the proof of work appends. -/
def bytesForPow (h : BlockHeader) : Bytes :=
  le64 h.height ++ h.prevHash.asBytes ++ h.txRoot.asBytes ++ le64 h.timestamp ++
  le64 h.difficulty ++ h.miner.asBytes

/-- The PoW hash also serves as the block identifier. -/
def id (K : Crates) (h : BlockHeader) (dataset : Dataset) : Hash256 :=
  ondrisHash K h.bytesForPow h.nonce dataset

@[simp] theorem length_bytesForPow (h : BlockHeader) : h.bytesForPow.length = 108 := by
  simp [bytesForPow]

end BlockHeader

/-! ## Blocks -/

structure Block where
  header : BlockHeader
  transactions : TxVec
deriving DecidableEq

/-- The hash of two neighbours of one Merkle level. -/
def merkleCombine (K : Crates) (left right : Hash256) : Hash256 :=
  Hash256.hash K (left.asBytes ++ right.asBytes)

/-- Merkle root, duplicating the last odd element of a level. -/
def merkleRoot (K : Crates) (hashes : List Hash256) : Hash256 :=
  (MerkleTree.reduce (merkleCombine K) hashes).getD Hash256.zero

def Block.computeTxRoot (K : Crates) (b : Block) : Hash256 :=
  merkleRoot K (b.transactions.val.map (·.hash K))

@[simp] theorem merkleRoot_nil (K : Crates) : merkleRoot K [] = Hash256.zero := by
  simp [merkleRoot, MerkleTree.reduce]

end Ondris
