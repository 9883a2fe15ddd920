import Mathlib

/-! The write fan-out of a node: which nodes its own cluster table lets it write to, whom it sends
the replica messages, and when their answers make a quorum. -/
namespace MaxIOFS.Fanout

inductive Health where
  | healthy
  | degraded
  | unavailable
  | unknown
  | dead
  | storagePressure
  deriving DecidableEq

structure Table (ν : Type) where
  (readable enabled : Bool)
  factor : Nat
  rows : List (ν × Health)

section
variable {ν : Type} [DecidableEq ν]

-- A table that cannot be read is taken for a cluster that is switched off.
def isClusterEnabled (t : Table ν) : Bool := t.readable && t.enabled

def getReplicationFactor (t : Table ν) : Nat := if 1 ≤ t.factor ∧ t.factor ≤ 3 then t.factor else 1

def getHealthyNodes (t : Table ν) : List ν := (t.rows.filter fun row => decide (row.2 = .healthy)).map Prod.fst

def neededReplicas (factor : Nat) : Nat := (factor + 1) / 2 - 1

def others (home : ν) (t : Table ν) : List ν := (getHealthyNodes t).filter fun n => decide (n ≠ home)

def clusterCanAcceptWrites (home : ν) (t : Table ν) : Bool :=
  if isClusterEnabled t = false then true
  else
    let factor := getReplicationFactor t
    if factor ≤ 1 then true
    else if neededReplicas factor = 0 then true
    else decide (neededReplicas factor ≤ (others home t).length)

def replicaTargets (home : ν) (t : Table ν) : Option (List ν × Nat) :=
  if isClusterEnabled t = false then none
  else
    let factor := getReplicationFactor t
    if factor ≤ 1 then none
    else
      let targets := (others home t).take (factor - 1)
      if targets = [] then none else some (targets, neededReplicas factor)

def setHealth (t : Table ν) (node : ν) (health : Health) : Table ν :=
  { t with rows := t.rows.map fun row => if row.1 = node then (row.1, health) else row }

def confirmations (replies : List (ν × Bool)) : Nat := (replies.filter Prod.snd).length

def collectAndCheckQuorum (t : Table ν) (replies : List (ν × Bool)) (needed : Nat) : Table ν × Bool :=
  (replies.foldl (fun t reply => if reply.2 then t else setHealth t reply.1 .unavailable) t, decide (needed ≤ confirmations replies))

end

end MaxIOFS.Fanout
