import Astro.Core.Serializer

/-!
# transaction.cpp
-/

namespace Astro

structure Transaction where
  version : UInt16 := 1
  nonce : UInt64 := 0
  amount : UInt64 := 0
  fromPubPem : Bytes := []
  toLabel : Bytes := []
  signature : Bytes := []
  deriving DecidableEq

namespace Transaction

/-- The bytes that are stored, or, for signing, the same bytes with an empty
signature. -/
def serialize (tx : Transaction) (forSigning : Bool) : Bytes :=
  let writer := ({} : ByteWriter)
    |>.writeU8 0xA1
    |>.writeU8 0x01
    |>.writeU32 1
    |>.writeU32 tx.version.toUInt32
    |>.writeU64 tx.nonce
    |>.writeU64 tx.amount
    |>.writeBytes tx.fromPubPem
    |>.writeString tx.toLabel
  (if !forSigning then writer.writeBytes tx.signature else writer.writeU32 0).take

def txHash (sha256 : Bytes → Hash256) (tx : Transaction) : Hash256 := sha256 (tx.serialize true)

def sign (signMessage : Bytes → Bytes → Except Exn Bytes) (tx : Transaction)
    (privkeyPem : Bytes) : Except Exn Transaction :=
  match signMessage privkeyPem (tx.serialize true) with
  | .error e => .error e
  | .ok signature => .ok { tx with signature }

def verify (E : Env) (tx : Transaction) : Except Exn Bool :=
  E.verifyMessage tx.fromPubPem (tx.serialize true) tx.signature

end Transaction

end Astro
