import Candypool.Core.Serialize
import Candypool.Lib.OrderedMap
import Mathlib.Order.Fin.Basic

/-! The key store of an encrypted wallet: every secret is encrypted with the master key, and the master
key with what a passphrase gives. AES, the key derivation and the curve are parameters. -/
namespace Candypool.Wallet.Crypted
open Candypool.Prime Candypool.Core Candypool.Lib

abbrev CSecret := List UInt8
abbrev CPubKey := List UInt8
abbrev CKeyID := Fin (2^160)
abbrev SecureString := List UInt8
abbrev CKeyingMaterial := List UInt8

structure CKey where
  vchSecret : CSecret
  fCompressedPubKey : Bool
  deriving DecidableEq

section Parameters

/-- `bytesToKey` is `EVP_BytesToKey` with its key and its IV, `encrypt` and `decrypt` are AES-256-CBC
with the padding, and `getPubKey` the public key of a secret in one of its two forms. -/
structure Crypto where
  bytesToKey : SecureString → List UInt8 → ℕ → List UInt8 × List UInt8
  encrypt : List UInt8 → List UInt8 → List UInt8 → List UInt8
  decrypt : List UInt8 → List UInt8 → List UInt8 → Option (List UInt8)
  getPubKey : CSecret → Bool → CPubKey
  getHash : CPubKey → Uint256
  getID : CPubKey → CKeyID

/-- What the wallet relies on. -/
structure Crypto.Lawful (crypto : Crypto) : Prop where
  decrypt_encrypt : ∀ chKey chIV text,
    crypto.decrypt chKey chIV (crypto.encrypt chKey chIV text) = some text
  getPubKey_length : ∀ vchSecret fCompressed, vchSecret.length = 32 →
    (crypto.getPubKey vchSecret fCompressed).length = if fCompressed then 33 else 65

variable (crypto : Crypto)

def Crypto.pubKey (key : CKey) : CPubKey := crypto.getPubKey key.vchSecret key.fCompressedPubKey

def Crypto.keyID (key : CKey) : CKeyID := crypto.getID (crypto.pubKey key)

end Parameters

section Crypter
variable (crypto : Crypto)

structure CCrypter where
  chKey : List UInt8
  chIV : List UInt8
  fKeySet : Bool

def CCrypter.new : CCrypter := ⟨[], [], false⟩

def CCrypter.setKeyFromPassphrase (crypter : CCrypter) (strKeyData : SecureString)
    (chSalt : List UInt8) (nRounds nDerivationMethod : ℕ) : Bool × CCrypter :=
  if nRounds < 1 ∨ chSalt.length ≠ 8 then (false, crypter)
  else if nDerivationMethod = 0 then
    let (chKey,chIV) := crypto.bytesToKey strKeyData chSalt nRounds
    (true, ⟨chKey, chIV, true⟩)
  else (false, { crypter with chKey := List.replicate 32 0, chIV := List.replicate 32 0 })

def CCrypter.setKey (crypter : CCrypter) (chNewKey : CKeyingMaterial) (chNewIV : List UInt8) :
    Bool × CCrypter :=
  if chNewKey.length ≠ 32 ∨ chNewIV.length ≠ 32 then (false, crypter)
  else (true, ⟨chNewKey, chNewIV, true⟩)

def CCrypter.encrypt (crypter : CCrypter) (vchPlaintext : List UInt8) : Option (List UInt8) :=
  if !crypter.fKeySet then none else some (crypto.encrypt crypter.chKey crypter.chIV vchPlaintext)

def CCrypter.decrypt (crypter : CCrypter) (vchCiphertext : List UInt8) : Option (List UInt8) :=
  if !crypter.fKeySet then none else crypto.decrypt crypter.chKey crypter.chIV vchCiphertext

/-- The bytes of a hash in memory. -/
def ivOf (nIV : Uint256) : List UInt8 := numberBytes 32 nIV.toNat

def encryptSecret (vMasterKey : CKeyingMaterial) (vchPlaintext : CSecret) (nIV : Uint256) :
    Option (List UInt8) :=
  match CCrypter.new.setKey vMasterKey (ivOf nIV) with
  | (false,_) => none
  | (true,crypter) => crypter.encrypt crypto vchPlaintext

def decryptSecret (vMasterKey : CKeyingMaterial) (vchCiphertext : List UInt8) (nIV : Uint256) :
    Option CSecret :=
  match CCrypter.new.setKey vMasterKey (ivOf nIV) with
  | (false,_) => none
  | (true,crypter) => crypter.decrypt crypto vchCiphertext

variable {crypto} {vMasterKey : CKeyingMaterial}

theorem ivOf_length (nIV : Uint256) : (ivOf nIV).length = 32 := numberBytes_length 32 _

theorem setKey_eq (h : vMasterKey.length = 32) (nIV : Uint256) :
    CCrypter.new.setKey vMasterKey (ivOf nIV) = (true, ⟨vMasterKey, ivOf nIV, true⟩) := by
  rw [CCrypter.setKey, if_neg]
  rintro (hkey | hiv)
  · exact hkey h
  · exact hiv (ivOf_length nIV)

theorem encryptSecret_eq (h : vMasterKey.length = 32) (vchSecret : CSecret) (nIV : Uint256) :
    encryptSecret crypto vMasterKey vchSecret nIV =
      some (crypto.encrypt vMasterKey (ivOf nIV) vchSecret) := by
  rw [encryptSecret, setKey_eq h]
  rfl

theorem decryptSecret_encrypt (hcrypto : crypto.Lawful) (h : vMasterKey.length = 32)
    (vchSecret : CSecret) (nIV : Uint256) :
    decryptSecret crypto vMasterKey (crypto.encrypt vMasterKey (ivOf nIV) vchSecret) nIV =
      some vchSecret := by
  rw [decryptSecret, setKey_eq h]
  exact hcrypto.decrypt_encrypt _ _ _

end Crypter

section KeyStore
variable (crypto : Crypto)

structure CCryptoKeyStore where
  mapKeys : List (CKeyID × CKey)
  mapCryptedKeys : List (CKeyID × CPubKey × List UInt8)
  vMasterKey : CKeyingMaterial
  fUseCrypto : Bool

namespace CCryptoKeyStore
variable (s : CCryptoKeyStore)

def new : CCryptoKeyStore := ⟨[], [], [], false⟩

def isCrypted : Bool := s.fUseCrypto

def isLocked : Bool := if !s.isCrypted then false else s.vMasterKey.isEmpty

def setCrypted : Bool × CCryptoKeyStore :=
  if s.fUseCrypto then (true, s)
  else if s.mapKeys ≠ [] then (false, s)
  else (true, { s with fUseCrypto := true })

def lock : Bool × CCryptoKeyStore :=
  match s.setCrypted with
  | (false,s) => (false, s)
  | (true,s) => (true, { s with vMasterKey := [] })

/-- The check of the first crypted key. -/
def opensFirst (vMasterKeyIn : CKeyingMaterial) : List (CKeyID × CPubKey × List UInt8) → Bool
  | [] => true
  | (_,vchPubKey,vchCryptedSecret) :: _ =>
    match decryptSecret crypto vMasterKeyIn vchCryptedSecret (crypto.getHash vchPubKey) with
    | none => false
    | some vchSecret =>
      if vchSecret.length ≠ 32 then false
      else crypto.getPubKey vchSecret (vchPubKey.length = 33) == vchPubKey

def unlock (vMasterKeyIn : CKeyingMaterial) : Bool × CCryptoKeyStore :=
  match s.setCrypted with
  | (false,s) => (false, s)
  | (true,s) =>
    if !opensFirst crypto vMasterKeyIn s.mapCryptedKeys then (false, s)
    else (true, { s with vMasterKey := vMasterKeyIn })

/-- `CBasicKeyStore::AddKey`. -/
def addBasicKey (key : CKey) : CCryptoKeyStore :=
  { s with mapKeys := OrderedMap.set (crypto.keyID key) key s.mapKeys }

def addCryptedKey (vchPubKey : CPubKey) (vchCryptedSecret : List UInt8) : Bool × CCryptoKeyStore :=
  match s.setCrypted with
  | (false,s) => (false, s)
  | (true,s) =>
    let crypted := OrderedMap.set (crypto.getID vchPubKey) (vchPubKey,vchCryptedSecret) s.mapCryptedKeys
    (true, { s with mapCryptedKeys := crypted })

def haveKey (address : CKeyID) : Bool :=
  if !s.isCrypted then (s.mapKeys.lookup address).isSome
  else (s.mapCryptedKeys.lookup address).isSome

/-- The key that a fresh `CKey` is filled with. -/
def getKey (address : CKeyID) : Option CKey :=
  if !s.isCrypted then s.mapKeys.lookup address
  else
    match s.mapCryptedKeys.lookup address with
    | none => none
    | some (vchPubKey,vchCryptedSecret) =>
      match decryptSecret crypto s.vMasterKey vchCryptedSecret (crypto.getHash vchPubKey) with
      | none => none
      | some vchSecret =>
        if vchSecret.length ≠ 32 then none else some ⟨vchSecret, vchPubKey.length = 33⟩

variable {crypto s}

theorem setCrypted_eq (h : s.fUseCrypto = true) : s.setCrypted = (true, s) := if_pos h

theorem lock_eq (h : s.fUseCrypto = true) : s.lock = (true, { s with vMasterKey := [] }) := by
  rw [lock, setCrypted_eq h]

theorem unlock_eq (h : s.fUseCrypto = true) (vMasterKeyIn : CKeyingMaterial) :
    s.unlock crypto vMasterKeyIn = if !opensFirst crypto vMasterKeyIn s.mapCryptedKeys then (false, s)
      else (true, { s with vMasterKey := vMasterKeyIn }) := by
  rw [unlock, setCrypted_eq h]

theorem addCryptedKey_eq (h : s.fUseCrypto = true) (vchPubKey : CPubKey)
    (vchCryptedSecret : List UInt8) : s.addCryptedKey crypto vchPubKey vchCryptedSecret =
      (true, ⟨s.mapKeys, OrderedMap.set (crypto.getID vchPubKey) (vchPubKey,vchCryptedSecret)
        s.mapCryptedKeys, s.vMasterKey, s.fUseCrypto⟩) := by
  rw [addCryptedKey, setCrypted_eq h]

end CCryptoKeyStore
end KeyStore

section Entries
variable (crypto : Crypto)

/-- The secret of a key as it is kept. -/
def Crypto.cryptedSecret (vMasterKey : CKeyingMaterial) (key : CKey) : List UInt8 :=
  crypto.encrypt vMasterKey (ivOf (crypto.getHash (crypto.pubKey key))) key.vchSecret

def Crypto.keyEntry (key : CKey) : CKeyID × CKey := (crypto.keyID key, key)

def Crypto.cryptedEntry (vMasterKey : CKeyingMaterial) (key : CKey) : CKeyID × CPubKey × List UInt8 :=
  (crypto.keyID key, crypto.pubKey key, crypto.cryptedSecret vMasterKey key)

/-- Keys with one address are one key. -/
def KeysApart (keys : List CKey) : Prop :=
  ∀ key ∈ keys, ∀ key' ∈ keys, crypto.keyID key = crypto.keyID key' → key = key'

variable {crypto} {vMasterKey : CKeyingMaterial} {keys : List CKey} {key : CKey}
  {s : CCryptoKeyStore}

theorem decryptSecret_cryptedSecret (hcrypto : crypto.Lawful) (h : vMasterKey.length = 32) (key : CKey) :
    decryptSecret crypto vMasterKey (crypto.cryptedSecret vMasterKey key)
      (crypto.getHash (crypto.pubKey key)) = some key.vchSecret :=
  decryptSecret_encrypt hcrypto h _ _

theorem pubKey_compressed (hcrypto : crypto.Lawful) (h : key.vchSecret.length = 32) :
    decide ((crypto.pubKey key).length = 33) = key.fCompressedPubKey := by
  rw [Crypto.pubKey, hcrypto.getPubKey_length _ _ h]
  cases key.fCompressedPubKey
  · rfl
  · rfl

/-- The master key opens every store of secrets that it has encrypted. -/
theorem opensFirst_cryptedEntry (hcrypto : crypto.Lawful) (h : vMasterKey.length = 32)
    (hkeys : ∀ key ∈ keys, key.vchSecret.length = 32) {m : List (CKeyID × CPubKey × List UInt8)}
    (hm : ∀ e ∈ m, e ∈ keys.map (crypto.cryptedEntry vMasterKey)) :
    CCryptoKeyStore.opensFirst crypto vMasterKey m = true := by
  cases m with
  | nil => rfl
  | cons e m =>
    obtain ⟨key,hmem,rfl⟩ := List.mem_map.mp (hm e List.mem_cons_self)
    have hsecret := hkeys key hmem
    rw [Crypto.cryptedEntry, CCryptoKeyStore.opensFirst, decryptSecret_cryptedSecret hcrypto h]
    dsimp only
    rw [if_neg (not_not.mpr hsecret), pubKey_compressed hcrypto hsecret]
    exact beq_self_eq_true _

theorem getKey_cryptedEntry (hcrypto : crypto.Lawful) (h : s.vMasterKey.length = 32)
    (hcrypted : s.fUseCrypto = true) (hsecret : key.vchSecret.length = 32)
    (hlookup : s.mapCryptedKeys.lookup (crypto.keyID key) =
      some (crypto.pubKey key,crypto.cryptedSecret s.vMasterKey key)) :
    s.getKey crypto (crypto.keyID key) = some key := by
  rw [CCryptoKeyStore.getKey, CCryptoKeyStore.isCrypted, hcrypted, Bool.not_true,
    if_neg Bool.false_ne_true, hlookup]
  dsimp only
  rw [decryptSecret_cryptedSecret hcrypto h]
  dsimp only
  rw [if_neg (not_not.mpr hsecret), pubKey_compressed hcrypto hsecret]

end Entries

end Candypool.Wallet.Crypted
