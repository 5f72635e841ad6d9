import Nanocached.Basic
import Nanocached.Lib.Decimal

namespace Nanocached.Discovery

-- A line of numbers, separated by blanks, after the letter it starts with.
def headerLine (tag : UInt8) (numbers : List Nat) : Bytes :=
  tag :: numbers.flatMap (fun n => 32 :: Decimal.ofNat n) ++ [10]

-- The lengths of the fields that follow.
def lengthsLine (fields : List Bytes) : Bytes :=
  [32].intercalate (fields.map fun field => Decimal.ofNat field.length) ++ [10]

def buildRosterResponse (tag : UInt8) (nodes : List (Bytes × Bytes)) (replication : Nat) : Bytes :=
  headerLine tag [nodes.length, replication] ++
    nodes.flatMap fun (name, addr) => lengthsLine [name, addr] ++ name ++ addr ++ [10]

def buildNodeRosterResponse (entries : List (Bytes × Bytes × Bytes)) (replication : Nat) : Bytes :=
  headerLine 78 /- N -/ [entries.length, replication] ++
    entries.flatMap fun (name, addr, token) =>
      lengthsLine [name, addr, token] ++ name ++ addr ++ token ++ [10]

def renderProxyList (proxies : List (Bytes × Bytes)) : Bytes :=
  headerLine 78 /- N -/ [proxies.length] ++
    proxies.flatMap fun (name, addr) => lengthsLine [name, addr] ++ name ++ addr ++ [10]

def buildMigrateMessage (token joiningName joiningAddr joiningToken : Bytes)
    (joined : List (Bytes × Bytes)) (replication generation : Nat) : Bytes :=
  headerLine 77 /- M -/ [joiningName.length, joiningAddr.length, joiningToken.length, joined.length,
      replication, token.length, generation] ++
    token ++ joiningName ++ joiningAddr ++ joiningToken ++
    joined.flatMap fun (name, addr) => lengthsLine [name, addr] ++ name ++ addr

end Nanocached.Discovery
