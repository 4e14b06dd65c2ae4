import Candypool.Wallet.PlainWallet

/-! A wallet that is encrypted: one master key opens its keys, the passphrase opens the master key, and
the file has no key in the clear. -/
namespace Candypool.Wallet.Crypted
open Candypool.Prime Candypool.Core Candypool.Lib Candypool.Lib.OrderedMap

section Invariant
variable (crypto : Crypto)

def Crypto.cryptedRecord (vMasterKey : CKeyingMaterial) (key : CKey) : CPubKey × List UInt8 :=
  (crypto.pubKey key, crypto.cryptedSecret vMasterKey key)

/-- The store and the file have each of the keys under the master key. -/
structure HoldsCrypted (keys : List CKey) (vMasterKey : CKeyingMaterial) (w : CWallet) : Prop where
  crypted : w.store.fUseCrypto = true
  length : vMasterKey.length = 32
  mapCryptedKeys : Shows w.store.mapCryptedKeys (keys.map (crypto.cryptedEntry vMasterKey))
  ckey : Shows w.file.ckey (keys.map (crypto.cryptedRecord vMasterKey))

/-- The passphrase opens the master key. -/
structure OpenedBy (strWalletPassphrase : SecureString) (vMasterKey : CKeyingMaterial)
    (kMasterKey : CMasterKey) : Prop where
  salt : kMasterKey.vchSalt.length = 8
  rounds : 1 ≤ kMasterKey.nDeriveIterations
  method : kMasterKey.nDerivationMethod = 0
  decrypt : kMasterKey.decrypt crypto strWalletPassphrase = some vMasterKey

/-- There is one master key, and the file has it too. -/
structure OneMaster (kMasterKey : CMasterKey) (w : CWallet) : Prop where
  mapMasterKeys : w.mapMasterKeys = [(1,kMasterKey)]
  nMasterKeyMaxID : w.nMasterKeyMaxID = 1
  mkey : w.file.mkey = [(1,kMasterKey)]

structure CryptedWallet (keys : List CKey) (strWalletPassphrase : SecureString)
    (vMasterKey : CKeyingMaterial) (kMasterKey : CMasterKey) (w : CWallet) : Prop where
  holds : HoldsCrypted crypto keys vMasterKey w
  one : OneMaster kMasterKey w
  opened : OpenedBy crypto strWalletPassphrase vMasterKey kMasterKey
  master : w.store.vMasterKey = [] ∨ w.store.vMasterKey = vMasterKey
  mapKeys : w.store.mapKeys = []
  key : w.file.key = []

end Invariant

section MasterKey
variable {crypto : Crypto} {kMasterKey : CMasterKey} {strWalletPassphrase : SecureString}
  {vMasterKey : CKeyingMaterial}

theorem setKeyFromPassphrase_eq (hsalt : kMasterKey.vchSalt.length = 8)
    (hrounds : 1 ≤ kMasterKey.nDeriveIterations) (hmethod : kMasterKey.nDerivationMethod = 0) :
    CCrypter.new.setKeyFromPassphrase crypto strWalletPassphrase kMasterKey.vchSalt
      kMasterKey.nDeriveIterations kMasterKey.nDerivationMethod =
    (true, ⟨(crypto.bytesToKey strWalletPassphrase kMasterKey.vchSalt kMasterKey.nDeriveIterations).1,
      (crypto.bytesToKey strWalletPassphrase kMasterKey.vchSalt kMasterKey.nDeriveIterations).2, true⟩) := by
  rw [CCrypter.setKeyFromPassphrase, if_neg, if_pos hmethod]
  rintro (hfew | hlength)
  · exact absurd hrounds (not_le.mpr hfew)
  · exact hlength hsalt

/-- What is encrypted under a passphrase is opened by it. -/
theorem encrypt_opened (hcrypto : crypto.Lawful) (hsalt : kMasterKey.vchSalt.length = 8)
    (hrounds : 1 ≤ kMasterKey.nDeriveIterations) (hmethod : kMasterKey.nDerivationMethod = 0) :
    ∃ kCrypted, kMasterKey.encrypt crypto strWalletPassphrase vMasterKey = some kCrypted ∧
      OpenedBy crypto strWalletPassphrase vMasterKey kCrypted := by
  have hset : CCrypter.new.setKeyFromPassphrase crypto strWalletPassphrase kMasterKey.vchSalt
      kMasterKey.nDeriveIterations kMasterKey.nDerivationMethod = _ :=
    setKeyFromPassphrase_eq hsalt hrounds hmethod
  rw [CMasterKey.encrypt, hset]
  refine ⟨_, rfl, hsalt, hrounds, hmethod, ?_⟩
  rw [CMasterKey.decrypt]
  dsimp only
  rw [hset]
  exact hcrypto.decrypt_encrypt _ _ _

theorem deriveIterations_pos (nDeriveIterations : ℕ) : 1 ≤ deriveIterations nDeriveIterations := by
  rw [deriveIterations]
  split_ifs
  · omega
  · omega

end MasterKey

section AddKey
variable {crypto : Crypto} {keys : List CKey} {key : CKey} {vMasterKey : CKeyingMaterial} {w : CWallet}

/-- A crypted key goes to the store and to the file, which drops the plain one. -/
theorem HoldsCrypted.addNew (h : HoldsCrypted crypto keys vMasterKey w)
    (hproper : ProperKeys crypto (keys ++ [key])) (hnew : key ∉ keys) :
    ∃ mapCryptedKeys ckey, w.addCryptedKey crypto (crypto.pubKey key) (crypto.cryptedSecret vMasterKey key) =
        (true, ⟨⟨w.store.mapKeys, mapCryptedKeys, w.store.vMasterKey, w.store.fUseCrypto⟩,
          w.mapMasterKeys, w.nMasterKeyMaxID,
          ⟨w.file.key.filter fun record => record.1 ≠ crypto.pubKey key, ckey, w.file.mkey⟩⟩) ∧
      Shows mapCryptedKeys ((keys ++ [key]).map (crypto.cryptedEntry vMasterKey)) ∧
      Shows ckey ((keys ++ [key]).map (crypto.cryptedRecord vMasterKey)) := by
  have hlookup : w.file.ckey.lookup (crypto.pubKey key) = none :=
    h.ckey.lookup_none (pubKey_new (fun _ => rfl) hproper hnew)
  refine ⟨_, w.file.ckey ++ [crypto.cryptedRecord vMasterKey key], ?_,
    Shows.addKey h.mapCryptedKeys hproper.same, Shows.addRecord h.ckey (fun _ => rfl) hproper hnew⟩
  rw [CWallet.addCryptedKey, CCryptoKeyStore.addCryptedKey_eq h.crypted]
  dsimp only
  rw [WalletFile.writeCryptedKey, hlookup, Option.isSome_none, if_neg Bool.false_ne_true]
  rfl

/-- One that the file has is refused. -/
theorem HoldsCrypted.addOld (h : HoldsCrypted crypto keys vMasterKey w)
    (hproper : ProperKeys crypto (keys ++ [key])) (hold : key ∈ keys) :
    ∃ mapCryptedKeys, w.addCryptedKey crypto (crypto.pubKey key) (crypto.cryptedSecret vMasterKey key) =
        (false, ⟨⟨w.store.mapKeys, mapCryptedKeys, w.store.vMasterKey, w.store.fUseCrypto⟩,
          w.mapMasterKeys, w.nMasterKeyMaxID, w.file⟩) ∧
      Shows mapCryptedKeys (keys.map (crypto.cryptedEntry vMasterKey)) := by
  have hlookup := h.ckey.finds _ (List.mem_map_of_mem hold)
  refine ⟨_, ?_, Shows.sameKey (Shows.addKey h.mapCryptedKeys hproper.same) hold⟩
  rw [CWallet.addCryptedKey, CCryptoKeyStore.addCryptedKey_eq h.crypted]
  dsimp only
  rw [WalletFile.writeCryptedKey, show w.file.ckey.lookup (crypto.pubKey key) =
    some (crypto.cryptedSecret vMasterKey key) from hlookup, Option.isSome_some, if_pos rfl]
  rfl

theorem isLocked_eq (h : w.store.fUseCrypto = true) :
    w.store.isLocked = w.store.vMasterKey.isEmpty := by
  rw [CCryptoKeyStore.isLocked, CCryptoKeyStore.isCrypted, h, Bool.not_true, if_neg Bool.false_ne_true]

variable {strWalletPassphrase : SecureString} {kMasterKey : CMasterKey}

theorem CryptedWallet.unlocked (h : CryptedWallet crypto keys strWalletPassphrase vMasterKey kMasterKey w)
    (hunlocked : w.store.isLocked = false) : w.store.vMasterKey = vMasterKey := by
  rw [isLocked_eq h.holds.crypted] at hunlocked
  rcases h.master with hnil | hmaster
  · rw [hnil] at hunlocked
    exact absurd hunlocked (by decide)
  · exact hmaster

/-- A locked wallet takes no key. -/
theorem CryptedWallet.addKey (h : CryptedWallet crypto keys strWalletPassphrase vMasterKey kMasterKey w)
    (hproper : ProperKeys crypto (keys ++ [key])) :
    (w.addKey crypto key).1 = (!w.store.isLocked && decide (key ∉ keys)) ∧
      CryptedWallet crypto (if (w.addKey crypto key).1 then keys ++ [key] else keys)
        strWalletPassphrase vMasterKey kMasterKey (w.addKey crypto key).2 ∧
      (w.addKey crypto key).2.store.isLocked = w.store.isLocked := by
  have hcrypted : w.store.isCrypted = true := h.holds.crypted
  have heq : w.addKey crypto key = if w.store.isLocked then (false, w) else
      (encryptSecret crypto w.store.vMasterKey key.vchSecret (crypto.getHash (crypto.pubKey key))).elim
        (false, w) fun vchCryptedSecret => w.addCryptedKey crypto (crypto.pubKey key) vchCryptedSecret := by
    rw [CWallet.addKey, hcrypted, Bool.not_true, if_neg Bool.false_ne_true]
    cases encryptSecret crypto w.store.vMasterKey key.vchSecret (crypto.getHash (crypto.pubKey key)) with
    | none => rfl
    | some vchCryptedSecret => rfl
  -- a locked wallet has no master key to encrypt with
  cases hlocked : w.store.isLocked with
  | true =>
    rw [hlocked, if_pos rfl] at heq
    rw [heq]
    exact ⟨rfl, h, hlocked⟩
  | false =>
    have hmaster := h.unlocked hlocked
    rw [hlocked, if_neg Bool.false_ne_true, hmaster, encryptSecret_eq h.holds.length] at heq
    change w.addKey crypto key =
      w.addCryptedKey crypto (crypto.pubKey key) (crypto.cryptedSecret vMasterKey key) at heq
    by_cases hkey : key ∈ keys
    · obtain ⟨mapCryptedKeys,hadd,hshows⟩ := h.holds.addOld hproper hkey
      rw [heq, hadd]
      exact ⟨(decide_eq_false (not_not.mpr hkey)).symm,
        ⟨⟨h.holds.crypted, h.holds.length, hshows, h.holds.ckey⟩,
        ⟨h.one.mapMasterKeys, h.one.nMasterKeyMaxID, h.one.mkey⟩, h.opened, h.master, h.mapKeys, h.key⟩,
        hlocked⟩
    · obtain ⟨mapCryptedKeys,ckey,hadd,hshows,hckey⟩ := h.holds.addNew hproper hkey
      rw [heq, hadd]
      refine ⟨(decide_eq_true hkey).symm, ⟨⟨h.holds.crypted, h.holds.length, hshows, hckey⟩,
        ⟨h.one.mapMasterKeys, h.one.nMasterKeyMaxID, h.one.mkey⟩, h.opened, h.master, h.mapKeys, ?_⟩,
        hlocked⟩
      dsimp only
      rw [h.key]
      rfl

end AddKey

section Lock
variable {crypto : Crypto} {keys : List CKey} {key : CKey} {vMasterKey : CKeyingMaterial} {w : CWallet}
  {strWalletPassphrase : SecureString} {kMasterKey : CMasterKey}

/-- Only the master key in memory is another one. -/
def CWallet.withMaster (w : CWallet) (vMasterKey : CKeyingMaterial) : CWallet :=
  { w with store := { w.store with vMasterKey := vMasterKey } }

theorem CryptedWallet.withMaster
    (h : CryptedWallet crypto keys strWalletPassphrase vMasterKey kMasterKey w) {vNow : CKeyingMaterial}
    (hnow : vNow = [] ∨ vNow = vMasterKey) :
    CryptedWallet crypto keys strWalletPassphrase vMasterKey kMasterKey (w.withMaster vNow) :=
  ⟨⟨h.holds.crypted, h.holds.length, h.holds.mapCryptedKeys, h.holds.ckey⟩,
    ⟨h.one.mapMasterKeys, h.one.nMasterKeyMaxID, h.one.mkey⟩, h.opened, hnow, h.mapKeys, h.key⟩

theorem lock_withMaster (h : w.store.fUseCrypto = true) : w.lock = (true, w.withMaster []) := by
  rw [CWallet.lock, CCryptoKeyStore.lock_eq h]
  rfl

theorem CryptedWallet.unlock_eq
    (h : CryptedWallet crypto keys strWalletPassphrase vMasterKey kMasterKey w)
    (strGiven : SecureString) : w.unlock crypto strGiven =
      if !w.store.isLocked then (false, w) else
      match kMasterKey.decrypt crypto strGiven with
      | none => (false, w)
      | some vGiven => if !CCryptoKeyStore.opensFirst crypto vGiven w.store.mapCryptedKeys then (false, w)
        else (true, w.withMaster vGiven) := by
  rw [CWallet.unlock, h.one.mapMasterKeys, CWallet.unlockLoop]
  cases kMasterKey.decrypt crypto strGiven with
  | none => rfl
  | some vGiven =>
    dsimp only
    rw [CCryptoKeyStore.unlock_eq h.holds.crypted]
    cases CCryptoKeyStore.opensFirst crypto vGiven w.store.mapCryptedKeys with
    | false => rfl
    | true => rfl

/-- The passphrase opens a locked wallet. -/
theorem CryptedWallet.unlock_opens (hcrypto : crypto.Lawful)
    (h : CryptedWallet crypto keys strWalletPassphrase vMasterKey kMasterKey w)
    (hsecret : ∀ key ∈ keys, key.vchSecret.length = 32) (hlocked : w.store.isLocked = true) :
    w.unlock crypto strWalletPassphrase = (true, w.withMaster vMasterKey) := by
  rw [h.unlock_eq, hlocked, Bool.not_true, if_neg Bool.false_ne_true, h.opened.decrypt]
  dsimp only
  rw [opensFirst_cryptedEntry hcrypto h.holds.length hsecret h.holds.mapCryptedKeys.only, Bool.not_true,
    if_neg Bool.false_ne_true]

/-- A wrong passphrase changes nothing. -/
theorem CryptedWallet.unlock_fails
    (h : CryptedWallet crypto keys strWalletPassphrase vMasterKey kMasterKey w) {strGiven : SecureString}
    (hfails : (w.unlock crypto strGiven).1 = false) : (w.unlock crypto strGiven).2 = w := by
  rw [h.unlock_eq] at hfails ⊢
  split_ifs at hfails ⊢ with hunlocked
  · rfl
  · cases hdecrypt : kMasterKey.decrypt crypto strGiven with
    | none => rfl
    | some vGiven =>
      rw [hdecrypt] at hfails
      dsimp only at hfails ⊢
      split_ifs at hfails ⊢
      rfl

theorem CryptedWallet.unlock
    (hcrypto : crypto.Lawful) (h : CryptedWallet crypto keys strWalletPassphrase vMasterKey kMasterKey w)
    (hsecret : ∀ key ∈ keys, key.vchSecret.length = 32) {strGiven : SecureString}
    (hgiven : strGiven = strWalletPassphrase ∨ (w.unlock crypto strGiven).1 = false) :
    CryptedWallet crypto keys strWalletPassphrase vMasterKey kMasterKey (w.unlock crypto strGiven).2 := by
  cases hlocked : w.store.isLocked with
  | false =>
    rw [h.unlock_eq, hlocked, Bool.not_false, if_pos rfl]
    exact h
  | true =>
    rcases hgiven with rfl | hfails
    · rw [h.unlock_opens hcrypto hsecret hlocked]
      exact h.withMaster (Or.inr rfl)
    · rw [h.unlock_fails hfails]
      exact h

/-- With the master key the store gives out every key. -/
theorem CryptedWallet.getKey (hcrypto : crypto.Lawful)
    (h : CryptedWallet crypto keys strWalletPassphrase vMasterKey kMasterKey w)
    (hsecret : ∀ key ∈ keys, key.vchSecret.length = 32) (hunlocked : w.store.isLocked = false)
    (hkey : key ∈ keys) : w.store.getKey crypto (crypto.keyID key) = some key := by
  have hmaster := h.unlocked hunlocked
  apply getKey_cryptedEntry hcrypto (hmaster ▸ h.holds.length) h.holds.crypted (hsecret key hkey)
  rw [hmaster]
  exact h.holds.mapCryptedKeys.finds _ (List.mem_map_of_mem hkey)

end Lock

section Change
variable {crypto : Crypto} {keys : List CKey} {vMasterKey : CKeyingMaterial} {w : CWallet}
  {strWalletPassphrase : SecureString} {kMasterKey : CMasterKey}

/-- The wallet is locked first, and a passphrase that opens the master key is replaced. -/
theorem CryptedWallet.change_cases (hcrypto : crypto.Lawful)
    (h : CryptedWallet crypto keys strWalletPassphrase vMasterKey kMasterKey w)
    (strOld strNew : SecureString) (nDeriveIterations : ℕ) :
    (∃ vGiven kNew, kMasterKey.decrypt crypto strOld = some vGiven ∧ OpenedBy crypto strNew vGiven kNew ∧
      w.changeWalletPassphrase crypto strOld strNew nDeriveIterations =
        (true, ⟨⟨w.store.mapKeys, w.store.mapCryptedKeys, if w.store.isLocked then [] else vGiven,
            w.store.fUseCrypto⟩, [(1,kNew)], w.nMasterKeyMaxID, ⟨w.file.key, w.file.ckey, [(1,kNew)]⟩⟩)) ∨
    ((∀ vGiven, kMasterKey.decrypt crypto strOld = some vGiven →
        CCryptoKeyStore.opensFirst crypto vGiven w.store.mapCryptedKeys = false) ∧
      w.changeWalletPassphrase crypto strOld strNew nDeriveIterations = (false, w.withMaster [])) := by
  have hcrypted : (w.withMaster []).store.fUseCrypto = true := h.holds.crypted
  rw [CWallet.changeWalletPassphrase, lock_withMaster h.holds.crypted]
  dsimp only
  rw [show (w.withMaster []).mapMasterKeys = [(1,kMasterKey)] from h.one.mapMasterKeys,
    CWallet.changeLoop]
  cases hdecrypt : kMasterKey.decrypt crypto strOld with
  | none => exact Or.inr ⟨fun _ heq => absurd heq.symm (Option.some_ne_none _), rfl⟩
  | some vGiven =>
    dsimp only
    rw [CCryptoKeyStore.unlock_eq hcrypted]
    cases hopens : CCryptoKeyStore.opensFirst crypto vGiven (w.withMaster []).store.mapCryptedKeys with
    | false => exact Or.inr ⟨fun v heq => Option.some.inj heq ▸ hopens, rfl⟩
    | true =>
      obtain ⟨kNew,hencrypt,hopened⟩ := @encrypt_opened crypto
        ⟨kMasterKey.vchCryptedKey, kMasterKey.vchSalt, kMasterKey.nDerivationMethod,
          deriveIterations nDeriveIterations⟩ strNew vGiven hcrypto h.opened.salt
        (deriveIterations_pos nDeriveIterations) h.opened.method
      refine Or.inl ⟨vGiven, kNew, rfl, hopened, ?_⟩
      rw [Bool.not_true, if_neg Bool.false_ne_true]
      dsimp only
      rw [hencrypt]
      dsimp only
      have hmaster : (w.withMaster []).mapMasterKeys = [(1,kMasterKey)] := h.one.mapMasterKeys
      have hfile : (w.withMaster []).file.mkey = [(1,kMasterKey)] := h.one.mkey
      rw [WalletFile.writeMasterKey, hmaster, hfile]
      cases w.store.isLocked with
      | false => rfl
      | true =>
        rw [if_pos rfl, lock_withMaster]
        · rfl
        · exact hcrypted

/-- After the change the new passphrase opens the wallet; a change that fails has only locked it. -/
theorem CryptedWallet.change (hcrypto : crypto.Lawful)
    (h : CryptedWallet crypto keys strWalletPassphrase vMasterKey kMasterKey w)
    (hsecret : ∀ key ∈ keys, key.vchSecret.length = 32) {strOld strNew : SecureString}
    {nDeriveIterations : ℕ} (hgiven : strOld = strWalletPassphrase ∨
      (w.changeWalletPassphrase crypto strOld strNew nDeriveIterations).1 = false) :
    ∃ kNew, CryptedWallet crypto keys
      (if (w.changeWalletPassphrase crypto strOld strNew nDeriveIterations).1 then strNew
        else strWalletPassphrase) vMasterKey kNew
      (w.changeWalletPassphrase crypto strOld strNew nDeriveIterations).2 := by
  have hmaster := opensFirst_cryptedEntry hcrypto h.holds.length hsecret h.holds.mapCryptedKeys.only
  obtain ⟨vGiven,kNew,hdecrypt,hopened,heq⟩ | ⟨hrefused,heq⟩ :=
    h.change_cases hcrypto strOld strNew nDeriveIterations
  · rw [heq] at hgiven ⊢
    obtain rfl := hgiven.resolve_right Bool.noConfusion
    obtain rfl := Option.some.inj (hdecrypt.symm.trans h.opened.decrypt)
    refine ⟨kNew, ⟨h.holds.crypted, h.holds.length, h.holds.mapCryptedKeys, h.holds.ckey⟩,
      ⟨rfl, h.one.nMasterKeyMaxID, rfl⟩, hopened, ?_, h.mapKeys, h.key⟩
    dsimp only
    split_ifs
    · exact Or.inl rfl
    · exact Or.inr rfl
  · rw [heq]
    exact ⟨kMasterKey, h.withMaster (Or.inl rfl)⟩

end Change

section Load
variable {crypto : Crypto} {keys : List CKey} {vMasterKey : CKeyingMaterial} {w : CWallet}
  {strWalletPassphrase : SecureString} {kMasterKey : CMasterKey}

/-- The first crypted key makes the store a crypted one. -/
theorem loadCryptedKeys_eq (records : List (CPubKey × List UInt8)) (hmapKeys : w.store.mapKeys = []) :
    CWallet.loadRecords (CWallet.loadCryptedKey crypto) records w =
      (true, ⟨⟨[], (records.map fun record => (crypto.getID record.1,record)).foldl
          (fun m e => OrderedMap.set e.1 e.2 m) w.store.mapCryptedKeys,
        w.store.vMasterKey, w.store.fUseCrypto || !records.isEmpty⟩,
        w.mapMasterKeys, w.nMasterKeyMaxID, w.file⟩) := by
  induction records generalizing w with
  | nil =>
    rw [CWallet.loadRecords, List.isEmpty_nil, Bool.not_true, Bool.or_false, ← hmapKeys]
    rfl
  | cons record records ih =>
    have hset : w.store.setCrypted = (true, ⟨[], w.store.mapCryptedKeys, w.store.vMasterKey, true⟩) := by
      have hstore : w.store =
          ⟨[], w.store.mapCryptedKeys, w.store.vMasterKey, w.store.fUseCrypto⟩ := by
        rw [← hmapKeys]
      rw [hstore]
      cases w.store.fUseCrypto with
      | true => rfl
      | false => rfl
    have hload : CWallet.loadCryptedKey crypto w record = (true, ⟨⟨[], OrderedMap.set
        (crypto.getID record.1) record w.store.mapCryptedKeys, w.store.vMasterKey, true⟩,
        w.mapMasterKeys, w.nMasterKeyMaxID, w.file⟩) := by
      rw [CWallet.loadCryptedKey, CCryptoKeyStore.addCryptedKey, hset]
    rw [CWallet.loadRecords, hload]
    dsimp only
    rw [ih rfl, List.isEmpty_cons, Bool.not_false, Bool.or_true]
    rfl

/-- A crypted wallet comes back from its file, and it is locked. -/
theorem CryptedWallet.load
    (h : CryptedWallet crypto keys strWalletPassphrase vMasterKey kMasterKey w)
    (hproper : ProperKeys crypto keys) (hkeys : keys ≠ []) :
    (CWallet.loadWallet crypto w.file).1 = true ∧
      CryptedWallet crypto keys strWalletPassphrase vMasterKey kMasterKey
        (CWallet.loadWallet crypto w.file).2 ∧
      (CWallet.loadWallet crypto w.file).2.store.isLocked = true := by
  have hmap : Shows ((w.file.ckey.map fun record => (crypto.getID record.1,record)).foldl
      (fun m e => OrderedMap.set e.1 e.2 m) []) (keys.map (crypto.cryptedEntry vMasterKey)) :=
    shows_foldl h.holds.ckey hproper.apart
  have hnonempty : w.file.ckey.isEmpty = false :=
    List.isEmpty_eq_false_iff.mpr (h.holds.ckey.ne_nil (List.map_eq_nil_iff.not.mpr hkeys))
  have hload : CWallet.loadRecords (CWallet.loadCryptedKey crypto) w.file.ckey (.new w.file) = _ :=
    loadCryptedKeys_eq w.file.ckey rfl
  rw [hnonempty] at hload
  rw [CWallet.loadWallet, h.key, CWallet.loadRecords]
  dsimp only
  rw [hload, h.one.mkey]
  exact ⟨rfl, ⟨⟨rfl, h.holds.length, hmap, h.holds.ckey⟩, ⟨rfl, rfl, h.one.mkey⟩, h.opened,
    Or.inl rfl, rfl, h.key⟩, rfl⟩

end Load

end Candypool.Wallet.Crypted
