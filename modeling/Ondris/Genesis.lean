import Ondris.Block
import Ondris.Difficulty

/-!
# Genesis

The genesis configuration of `genesis.rs` and the block it stands for. Texts
are their UTF-8 bytes.
-/

namespace Ondris

open Encoding

structure PremineEntry where
  address : Bytes
  amount : UInt64
deriving DecidableEq

structure GenesisConfig where
  networkName : Bytes
  timestamp : UInt64
  initialDifficulty : UInt64
  initialReward : UInt64
  halvingInterval : UInt64
  targetBlockTimeSecs : UInt64
  retargetWindow : UInt64
  premine : List PremineEntry
deriving DecidableEq

namespace GenesisConfig

/-- Every premine entry with its address parsed, or the error of the first one that does not
parse. -/
def premineParsed (g : GenesisConfig) : Except DecodeError (List (Address × UInt64)) :=
  g.premine.mapM fun e => (Address.fromStr e.address).map fun a => (a, e.amount)

/-- `halving_interval.max(1)`. -/
def halvingInterval1 (g : GenesisConfig) : UInt64 := max g.halvingInterval 1

/-- `retarget_window.max(1)`. -/
def window (g : GenesisConfig) : UInt64 := max g.retargetWindow 1

/-- `Chain::block_reward`. -/
def blockReward (g : GenesisConfig) (height : UInt64) : UInt64 :=
  let halvings := height / g.halvingInterval1
  if 64 ≤ halvings then 0 else g.initialReward >>> halvings

/-- The genesis block of `init_genesis`. -/
def genesisBlock (g : GenesisConfig) : Block where
  header :=
    { height := 0
      prevHash := Hash256.zero
      txRoot := Hash256.zero
      timestamp := g.timestamp
      difficulty := g.initialDifficulty
      miner := ⟨List.Vector.replicate 20 0⟩
      nonce := 0 }
  transactions := ⟨[], TxVec.nil_lt⟩

/-- The text `ONDRIS_GENESIS:` with the network name and the timestamp. -/
def genesisText (g : GenesisConfig) : Bytes :=
  ascii "ONDRIS_GENESIS:" ++ g.networkName ++ ascii ":" ++ decimal g.timestamp.toNat

/-- `genesis_block_hash`: genesis is not mined, its identifier hashes a text. -/
def genesisHash (K : Crates) (g : GenesisConfig) : Hash256 := Hash256.hash K g.genesisText

theorem one_le_halvingInterval1 (g : GenesisConfig) : 1 ≤ g.halvingInterval1.toNat := by
  rw [halvingInterval1, UInt64.toNat_max]
  exact Nat.le_max_right _ _

end GenesisConfig

end Ondris
