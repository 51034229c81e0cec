import CoinScript.Key.Private
import CoinScript.Template.Basic

namespace CoinScript

/-- Private keys by the hash of their public key, and scripts by both of their hashes. -/
structure KeyStore where
  keys : List (FixedBytes 20 × PrivateKey secp256k1) := []
  scripts : List (ScriptId × Script) := []

namespace KeyStore

/-- Adding under a name replaces what stood there. -/
def put {α β : Type} [DecidableEq α] (name : α) (value : β) (entries : List (α × β)) :
    List (α × β) :=
  (name, value) :: entries.filter fun entry => entry.1 ≠ name

def addKey (store : KeyStore) (key : PrivateKey secp256k1) : KeyStore :=
  { store with keys := put key.publicKey.id key store.keys }

def addScript (store : KeyStore) (s : Script) : KeyStore :=
  { store with scripts := put (.shortOf s) s (put (.longOf s) s store.scripts) }

def key? (store : KeyStore) (id : FixedBytes 20) : Option (PrivateKey secp256k1) :=
  store.keys.lookup id

def publicKey? (store : KeyStore) (id : FixedBytes 20) : Option (PublicKey secp256k1) :=
  (store.key? id).map PrivateKey.publicKey

def script? (store : KeyStore) (id : ScriptId) : Option Script := store.scripts.lookup id

def ofLists (keys : List (PrivateKey secp256k1)) (scripts : List Script) : KeyStore :=
  scripts.foldl addScript (keys.foldl addKey {})

theorem lookup_put {α β : Type} [DecidableEq α] (name other : α) (value : β)
    (entries : List (α × β)) :
    (put name value entries).lookup other =
      if other = name then some value else entries.lookup other := by
  by_cases h : other = name
  · simp [put, h]
  · have hb : (other == name) = false := by simp [h]
    simp only [put, List.lookup_cons, hb, h, if_false]
    induction entries with
    | nil => rfl
    | cons entry entries ih =>
      obtain ⟨k, v⟩ := entry
      by_cases hk : k = name
      · have hn : (other == k) = false := by simp [hk, h]
        simpa [hk, List.lookup_cons, hb] using ih
      · simp only [List.filter_cons, hk, List.lookup_cons, ne_eq, not_false_eq_true,
          decide_true, if_true]
        cases other == k
        · simpa using ih
        · rfl

end KeyStore

end CoinScript
