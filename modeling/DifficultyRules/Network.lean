/-
# `DifficultyRules.Network` — the networks that the rules distinguish

There are three networks.  The main and the test network check difficulties;
the regression network does not.  Only the test network lets a block fall back
to the minimal difficulty after a long gap.
-/
namespace DifficultyRules

inductive Network where
  | mainnet
  | testnet
  | regtest
deriving DecidableEq, Repr

/-- A name that no network has. -/
structure UnknownNetwork where
  name : String
deriving DecidableEq, Repr

def UnknownNetwork.message (e : UnknownNetwork) : String := "Unknown chain type: " ++ e.name

namespace Network

def name : Network → String
  | mainnet => "mainnet"
  | testnet => "testnet"
  | regtest => "regtest"

/-- The network of this name, spelled exactly. -/
def ofName (s : String) : Except UnknownNetwork Network :=
  if s = "mainnet" then .ok mainnet
  else if s = "testnet" then .ok testnet
  else if s = "regtest" then .ok regtest
  else .error ⟨s⟩

theorem ofName_name (n : Network) : ofName n.name = .ok n := by
  cases n <;> simp [ofName, name]

/-- Whether blocks carry no real difficulty requirement. -/
def skipsDifficultyChecks : Network → Bool
  | mainnet | testnet => false
  | regtest => true

theorem skipsDifficultyChecks_iff (n : Network) :
    n.skipsDifficultyChecks = true ↔ n = .regtest := by
  cases n <;> simp [skipsDifficultyChecks]

/-- Whether blocks may fall back to the minimal difficulty. -/
def allowsMinimalDifficulty : Network → Bool
  | mainnet | regtest => false
  | testnet => true

end Network
end DifficultyRules
