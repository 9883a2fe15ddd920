import MaxIOFS.ObjectManager

/-! Anti-entropy between two nodes, on one key: the copies are compared by ETag, size and time, and the
newer one is stored again on the other node through the ordinary PUT, which computes the ETag anew
from the bytes. -/
namespace MaxIOFS.AntiEntropy
open ByteString ObjectManager

structure Copy where
  (bytes etag : Bytes)
  lastModified : Int
  deriving DecidableEq

def Copy.size (c : Copy) : Int := c.bytes.length
def Copy.seconds (c : Copy) : Int := c.lastModified / 1000000000

structure ChecksumEntry where
  etag : Bytes
  (size lastModified : Int)
  deriving DecidableEq

def checksum (c : Copy) : ChecksumEntry := ⟨c.etag, c.size, c.seconds⟩

inductive Divergence where
  | none
  | peerMissing
  | localNewer
  | peerNewer
  | tieDifferentETag
  deriving DecidableEq

inductive Action where
  | none
  | pushToPeer
  | pullFromPeer
  deriving DecidableEq

def isMultipartETag (etag : Bytes) : Bool :=
  let suffix := (split 45 etag).getLastD []
  decide (45 ∈ etag) && decide (suffix.length + 1 < etag.length) && decide (suffix ≠ []) && (parseInt suffix).2

def lwwClassify (c : Copy) (peer : ChecksumEntry) : Divergence × Action :=
  if peer.lastModified < c.seconds then (.localNewer, .pushToPeer)
  else if c.seconds < peer.lastModified then (.peerNewer, .pullFromPeer)
  else if c.etag < peer.etag then (.tieDifferentETag, .pullFromPeer)
  else (.tieDifferentETag, .pushToPeer)

def classifyDivergence : Option Copy → Option ChecksumEntry → Divergence × Action
  | none, _ => (.none, .none)
  | some _, none => (.peerMissing, .pushToPeer)
  | some c, some peer =>
    if isMultipartETag c.etag || isMultipartETag peer.etag then
      if c.size ≠ peer.size ∨ 1 < (c.seconds - peer.lastModified).natAbs then lwwClassify c peer else (.none, .none)
    else if c.etag = peer.etag then (.none, .none) else lwwClassify c peer

section
variable (md5 : Bytes → Bytes) (now : Int)

-- The copy a replica PUT stores: a time before 1970 is not sent along.
def receive (c : Copy) : Copy := ⟨c.bytes, md5 c.bytes, fromSeconds (if 0 < c.seconds then c.seconds else now / 1000000000)⟩

-- What a scrub of one node against the other leaves of a key: the decision, and the transfer it asks for.
def resolve (a b : Option Copy) : Option Copy × Option Copy :=
  match (classifyDivergence a (b.map checksum)).2, a, b with
  | .pushToPeer, some c, _ => (some c, some (receive md5 now c))
  | .pullFromPeer, _, some d => (some (receive md5 now d), some d)
  | _, _, _ => (a, b)

end

end MaxIOFS.AntiEntropy
