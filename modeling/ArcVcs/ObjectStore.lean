import ArcVcs.Serial

/-!
# The object store

The files of `arc-store-cas` under `.arc/store`: an object is written once under its key.
`write_object` compares the content with the key, `write_change_bytes` does not.
-/

namespace ArcVcs

abbrev ObjectStore := FMap Blake3Hash Bytes

inductive CasError where
  | hashMismatch
  | notFound
  | decode
  | idMismatch
deriving DecidableEq

namespace ObjectStore

/-- `write_object`: the content must hash to the key. -/
def writeObject [Crypto] (store : ObjectStore) (hash : Blake3Hash) (bytes : Bytes) :
    Except CasError ObjectStore :=
  if Crypto.hashBytes bytes ≠ hash then .error .hashMismatch
  else .ok (FMap.putOnce store hash bytes)

/-- `write_change_bytes`: an object that is there stays. -/
def writeChangeBytes (store : ObjectStore) (id : Blake3Hash) (bytes : Bytes) : ObjectStore :=
  FMap.putOnce store id bytes

def readChangeBytes (store : ObjectStore) (id : Blake3Hash) : Except CasError Bytes :=
  match store.lookup id with
  | none => .error .notFound
  | some bytes => .ok bytes

variable [Serde]

def readChange (store : ObjectStore) (id : Blake3Hash) : Except CasError Change :=
  match store.readChangeBytes id with
  | .error e => .error e
  | .ok bytes =>
      match Serde.deserialize bytes with
      | none => .error .decode
      | some change => if change.id ≠ id then .error .idMismatch else .ok change

/-- A verified change with its record. -/
structure Holds [Crypto] [Ed25519] (store : ObjectStore) (c : Change) (bytes : Bytes) : Prop where
  stored : store.lookup c.id = some bytes
  encodes : Bincode.Encodes c bytes
  verified : c.verifySignature = true

end ObjectStore

end ArcVcs
