import Candypool.Wallet.Crypter

/-! A wallet with its file: keys are added, the wallet is encrypted, locked, unlocked and given another
passphrase, and the program is started again in between. -/
namespace Candypool.Wallet.Crypted
open Candypool.Prime Candypool.Core Candypool.Lib

section File

structure CMasterKey where
  vchCryptedKey : List UInt8
  vchSalt : List UInt8
  nDerivationMethod : ℕ
  nDeriveIterations : ℕ
  deriving DecidableEq

/-- The records that hold keys. -/
structure WalletFile where
  key : List (CPubKey × CKey)
  ckey : List (CPubKey × List UInt8)
  mkey : List (ℕ × CMasterKey)

namespace WalletFile
variable (file : WalletFile)

def empty : WalletFile := ⟨[], [], []⟩

/-- Only the record of a master key may be overwritten. -/
def writeKey (vchPubKey : CPubKey) (key : CKey) : Bool × WalletFile :=
  if (file.key.lookup vchPubKey).isSome then (false, file)
  else (true, { file with key := file.key ++ [(vchPubKey,key)] })

def writeCryptedKey (vchPubKey : CPubKey) (vchCryptedSecret : List UInt8) : Bool × WalletFile :=
  if (file.ckey.lookup vchPubKey).isSome then (false, file)
  else (true, { file with
    ckey := file.ckey ++ [(vchPubKey,vchCryptedSecret)]
    key := file.key.filter fun record => record.1 ≠ vchPubKey })

def writeMasterKey (nID : ℕ) (kMasterKey : CMasterKey) : WalletFile :=
  { file with mkey := OrderedMap.set nID kMasterKey file.mkey }

end WalletFile
end File

section Wallet
variable (crypto : Crypto)

structure CWallet where
  store : CCryptoKeyStore
  mapMasterKeys : List (ℕ × CMasterKey)
  nMasterKeyMaxID : ℕ
  file : WalletFile

/-- What a passphrase makes of a master key. -/
def CMasterKey.decrypt (kMasterKey : CMasterKey) (strWalletPassphrase : SecureString) :
    Option CKeyingMaterial :=
  match CCrypter.new.setKeyFromPassphrase crypto strWalletPassphrase kMasterKey.vchSalt
      kMasterKey.nDeriveIterations kMasterKey.nDerivationMethod with
  | (false,_) => none
  | (true,crypter) => crypter.decrypt crypto kMasterKey.vchCryptedKey

/-- The master key under a passphrase. -/
def CMasterKey.encrypt (kMasterKey : CMasterKey) (strWalletPassphrase : SecureString)
    (vMasterKey : CKeyingMaterial) : Option CMasterKey :=
  match CCrypter.new.setKeyFromPassphrase crypto strWalletPassphrase kMasterKey.vchSalt
      kMasterKey.nDeriveIterations kMasterKey.nDerivationMethod with
  | (false,_) => none
  | (true,crypter) => (crypter.encrypt crypto vMasterKey).map fun vchCryptedKey =>
    { kMasterKey with vchCryptedKey := vchCryptedKey }

/-- The rounds that take a tenth of a second, but not fewer than 25000. -/
def deriveIterations (nDeriveIterations : ℕ) : ℕ :=
  if nDeriveIterations < 25000 then 25000 else nDeriveIterations

namespace CWallet
variable (w : CWallet)

def new (file : WalletFile) : CWallet := ⟨.new, [], 0, file⟩

def addCryptedKey (vchPubKey : CPubKey) (vchCryptedSecret : List UInt8) : Bool × CWallet :=
  match w.store.addCryptedKey crypto vchPubKey vchCryptedSecret with
  | (false,store) => (false, { w with store := store })
  | (true,store) =>
    let (fOk,file) := w.file.writeCryptedKey vchPubKey vchCryptedSecret
    (fOk, { w with store := store, file := file })

/-- `CWallet::AddKey` over `CCryptoKeyStore::AddKey`. -/
def addKey (key : CKey) : Bool × CWallet :=
  if !w.store.isCrypted then
    let (fOk,file) := w.file.writeKey (crypto.pubKey key) key
    (fOk, { w with store := w.store.addBasicKey crypto key, file := file })
  else if w.store.isLocked then (false, w)
  else
    match encryptSecret crypto w.store.vMasterKey key.vchSecret (crypto.getHash (crypto.pubKey key)) with
    | none => (false, w)
    | some vchCryptedSecret => w.addCryptedKey crypto (crypto.pubKey key) vchCryptedSecret

/-- The loop of `EncryptKeys`. -/
def encryptLoop (vMasterKeyIn : CKeyingMaterial) : List (CKeyID × CKey) → CWallet → Bool × CWallet
  | [], w => (true, w)
  | (_,key) :: rest, w =>
    match encryptSecret crypto vMasterKeyIn key.vchSecret (crypto.getHash (crypto.pubKey key)) with
    | none => (false, w)
    | some vchCryptedSecret =>
      match w.addCryptedKey crypto (crypto.pubKey key) vchCryptedSecret with
      | (false,w) => (false, w)
      | (true,w) => encryptLoop vMasterKeyIn rest w

def encryptKeys (vMasterKeyIn : CKeyingMaterial) : Bool × CWallet :=
  if w.store.mapCryptedKeys ≠ [] ∨ w.store.isCrypted = true then (false, w)
  else
    match encryptLoop crypto vMasterKeyIn w.store.mapKeys
        { w with store := { w.store with fUseCrypto := true } } with
    | (false,w) => (false, w)
    | (true,w) => (true, { w with store := { w.store with mapKeys := [] } })

def lock : Bool × CWallet :=
  let (fOk,store) := w.store.lock
  (fOk, { w with store := store })

def unlockLoop (strWalletPassphrase : SecureString) :
    List (ℕ × CMasterKey) → CWallet → Bool × CWallet
  | [], w => (false, w)
  | (_,kMasterKey) :: rest, w =>
    match kMasterKey.decrypt crypto strWalletPassphrase with
    | none => (false, w)
    | some vMasterKey =>
      match w.store.unlock crypto vMasterKey with
      | (true,store) => (true, { w with store := store })
      | (false,store) => unlockLoop strWalletPassphrase rest { w with store := store }

def unlock (strWalletPassphrase : SecureString) : Bool × CWallet :=
  if !w.store.isLocked then (false, w) else unlockLoop crypto strWalletPassphrase w.mapMasterKeys w

/-- The loop of `ChangeWalletPassphrase`. -/
def changeLoop (fWasLocked : Bool) (strOld strNew : SecureString) (nDeriveIterations : ℕ) :
    List (ℕ × CMasterKey) → CWallet → Bool × CWallet
  | [], w => (false, w)
  | (nID,kMasterKey) :: rest, w =>
    match kMasterKey.decrypt crypto strOld with
    | none => (false, w)
    | some vMasterKey =>
      match w.store.unlock crypto vMasterKey with
      | (false,store) => changeLoop fWasLocked strOld strNew nDeriveIterations rest { w with store := store }
      | (true,store) =>
        let kMasterKey := { kMasterKey with nDeriveIterations := deriveIterations nDeriveIterations }
        let w := { w with store := store, mapMasterKeys := OrderedMap.set nID kMasterKey w.mapMasterKeys }
        match kMasterKey.encrypt crypto strNew vMasterKey with
        | none => (false, w)
        | some kMasterKey =>
          let w := { w with
            mapMasterKeys := OrderedMap.set nID kMasterKey w.mapMasterKeys
            file := w.file.writeMasterKey nID kMasterKey }
          (true, if fWasLocked then w.lock.2 else w)

def changeWalletPassphrase (strOld strNew : SecureString) (nDeriveIterations : ℕ) : Bool × CWallet :=
  let w' := w.lock.2
  changeLoop crypto w.store.isLocked strOld strNew nDeriveIterations w'.mapMasterKeys w'

/-- The keys that `NewKeyPool` makes; one that is not added makes it throw. -/
def generateKeys : List CKey → CWallet → Bool × CWallet
  | [], w => (true, w)
  | key :: rest, w =>
    match w.addKey crypto key with
    | (false,w) => (false, w)
    | (true,w) => generateKeys rest w

def newKeyPool (keys : List CKey) : Bool × CWallet :=
  if w.store.isLocked then (true, w) else generateKeys crypto keys w

/-- The random bytes, the rounds, whether the transaction is committed, and the new keys. -/
structure EncryptIO where
  vMasterKey : CKeyingMaterial
  vchSalt : List UInt8
  nDeriveIterations : ℕ
  fCommitted : Bool
  newKeys : List CKey

/-- The process may also exit, which leaves the file that there was before the transaction. -/
inductive EncryptOutcome where
  | returned (fOk : Bool) (w : CWallet)
  | thrown (w : CWallet)
  | exited (file : WalletFile)

def encryptWallet (strWalletPassphrase : SecureString) (io : EncryptIO) : EncryptOutcome :=
  if w.store.isCrypted then .returned false w
  else
    let kMasterKey : CMasterKey := ⟨[], io.vchSalt, 0, deriveIterations io.nDeriveIterations⟩
    match kMasterKey.encrypt crypto strWalletPassphrase io.vMasterKey with
    | none => .returned false w
    | some kMasterKey =>
      let nID := w.nMasterKeyMaxID+1
      match encryptKeys crypto { w with
          mapMasterKeys := OrderedMap.set nID kMasterKey w.mapMasterKeys
          nMasterKeyMaxID := nID
          file := w.file.writeMasterKey nID kMasterKey } io.vMasterKey with
      | (false,_) => .exited w.file
      | (true,encrypted) =>
        if !io.fCommitted then .exited w.file
        else
          let opened := (encrypted.lock.2.unlock crypto strWalletPassphrase).2
          match opened.newKeyPool crypto io.newKeys with
          | (false,w) => .thrown w
          | (true,w) => .returned true w.lock.2

end CWallet
end Wallet

section Load
variable (crypto : Crypto)
namespace CWallet

/-- A plain key must be that of its record; it is not taken once a crypted one is there. -/
def loadKey (w : CWallet) (record : CPubKey × CKey) : Bool × CWallet :=
  if crypto.pubKey record.2 ≠ record.1 then (false, w)
  else if w.store.isCrypted then (false, w)
  else (true, { w with store := w.store.addBasicKey crypto record.2 })

def loadCryptedKey (w : CWallet) (record : CPubKey × List UInt8) : Bool × CWallet :=
  let (fOk,store) := w.store.addCryptedKey crypto record.1 record.2
  (fOk, { w with store := store })

def loadMasterKey (w : CWallet) (record : ℕ × CMasterKey) : Bool × CWallet :=
  if (w.mapMasterKeys.lookup record.1).isSome then (false, w)
  else (true, { w with
    mapMasterKeys := OrderedMap.set record.1 record.2 w.mapMasterKeys
    nMasterKeyMaxID := max w.nMasterKeyMaxID record.1 })

/-- A record that cannot be read does not keep the others from being read. -/
def loadRecords {ρ : Type} (load : CWallet → ρ → Bool × CWallet) : List ρ → CWallet → Bool × CWallet
  | [], w => (true, w)
  | record :: rest, w =>
    let (fOk,w) := load w record
    let (fRest,w) := loadRecords load rest w
    (fOk && fRest, w)

/-- The records come in the order of their types; false is a corrupt wallet. -/
def loadWallet (file : WalletFile) : Bool × CWallet :=
  let (fKeys,w) := loadRecords (loadKey crypto) file.key (.new file)
  let (fCryptedKeys,w) := loadRecords (loadCryptedKey crypto) file.ckey w
  let (fMasterKeys,w) := loadRecords loadMasterKey file.mkey w
  (fKeys && fCryptedKeys && fMasterKeys, w)

end CWallet
end Load

section Run
variable (crypto : Crypto)

/-- The wallet, the keys that it took, and the passphrase it was last given. -/
structure WalletRun where
  wallet : CWallet
  keys : List CKey
  passphrase : Option SecureString

def WalletRun.start : WalletRun := ⟨.new .empty, [], none⟩

inductive WalletOp where
  | addKey (key : CKey)
  | encryptWallet (strWalletPassphrase : SecureString) (io : CWallet.EncryptIO)
  | lock
  | unlock (strWalletPassphrase : SecureString)
  | changeWalletPassphrase (strOld strNew : SecureString) (nDeriveIterations : ℕ)
  | restart

/-- A key is 32 bytes and has an address of its own, only an encrypted wallet is locked or given another
passphrase, one that is encrypted has a key, and a passphrase that is wrong is found to be wrong. -/
def WalletOp.Allowed (s : WalletRun) : WalletOp → Prop
  | .addKey key => key.vchSecret.length = 32 ∧ KeysApart crypto (s.keys ++ [key])
  | .encryptWallet _ io => s.keys ++ io.newKeys ≠ [] ∧ io.vMasterKey.length = 32 ∧ io.vchSalt.length = 8 ∧
    (∀ key ∈ io.newKeys, key.vchSecret.length = 32) ∧ KeysApart crypto (s.keys ++ io.newKeys) ∧
    (s.keys ++ io.newKeys).Nodup
  | .lock => s.wallet.store.isCrypted = true
  | .unlock strWalletPassphrase => s.passphrase = some strWalletPassphrase ∨
    (s.wallet.unlock crypto strWalletPassphrase).1 = false
  | .changeWalletPassphrase strOld strNew nDeriveIterations => s.wallet.store.isCrypted = true ∧
    (s.passphrase = some strOld ∨
      (s.wallet.changeWalletPassphrase crypto strOld strNew nDeriveIterations).1 = false)
  | .restart => True

def WalletOp.exec (s : WalletRun) : WalletOp → WalletRun
  | .addKey key =>
    match s.wallet.addKey crypto key with
    | (true,w) => { s with wallet := w, keys := s.keys ++ [key] }
    | (false,w) => { s with wallet := w }
  | .encryptWallet strWalletPassphrase io =>
    match s.wallet.encryptWallet crypto strWalletPassphrase io with
    | .returned true w => ⟨w, s.keys ++ io.newKeys, some strWalletPassphrase⟩
    | .returned false w => { s with wallet := w }
    | .thrown w => { s with wallet := w }
    | .exited file => { s with wallet := (CWallet.loadWallet crypto file).2 }
  | .lock => { s with wallet := s.wallet.lock.2 }
  | .unlock strWalletPassphrase => { s with wallet := (s.wallet.unlock crypto strWalletPassphrase).2 }
  | .changeWalletPassphrase strOld strNew nDeriveIterations =>
    match s.wallet.changeWalletPassphrase crypto strOld strNew nDeriveIterations with
    | (true,w) => { s with wallet := w, passphrase := some strNew }
    | (false,w) => { s with wallet := w }
  | .restart => { s with wallet := (CWallet.loadWallet crypto s.wallet.file).2 }

inductive WalletReaches : WalletRun → Prop where
  | start : WalletReaches WalletRun.start
  | step {s : WalletRun} (h : WalletReaches s) (op : WalletOp) (hop : op.Allowed crypto s) :
      WalletReaches (op.exec crypto s)

end Run

end Candypool.Wallet.Crypted
