import Candypool.Wallet.CryptedWallet

/-! No key is lost: in every run the wallet is plain, and its file has each key in the clear, or it is
crypted under one master key, which the last passphrase opens. -/
namespace Candypool.Wallet.Crypted
open Candypool.Prime Candypool.Core Candypool.Lib Candypool.Lib.OrderedMap

section Encrypt
variable {crypto : Crypto} {keys done : List CKey} {vMasterKey : CKeyingMaterial} {w : CWallet}
  {strWalletPassphrase : SecureString} {kMasterKey : CMasterKey}

/-- The keys that are encrypted have left the file in the clear, and no others. -/
structure Encrypting (crypto : Crypto) (keys done : List CKey) (vMasterKey : CKeyingMaterial)
    (kMasterKey : CMasterKey) (w : CWallet) : Prop where
  holds : HoldsCrypted crypto done vMasterKey w
  one : OneMaster kMasterKey w
  master : w.store.vMasterKey = []
  key : ∀ record ∈ w.file.key, ∃ key ∈ keys, key ∉ done ∧ crypto.keyRecord key = record

theorem encryptLoop_eq (hproper : ProperKeys crypto keys) (rest : List CKey)
    (hkeys : ∀ key ∈ done ++ rest, key ∈ keys) (hnodup : (done ++ rest).Nodup)
    (h : Encrypting crypto keys done vMasterKey kMasterKey w) :
    ∃ w', CWallet.encryptLoop crypto vMasterKey (rest.map crypto.keyEntry) w = (true, w') ∧
      Encrypting crypto keys (done ++ rest) vMasterKey kMasterKey w' := by
  induction rest generalizing done w with
  | nil =>
    rw [List.append_nil]
    exact ⟨w, rfl, h⟩
  | cons key rest ih =>
    have hsplit : done ++ key :: rest = (done ++ [key]) ++ rest := by
      rw [List.append_assoc]
      rfl
    rw [hsplit] at hkeys hnodup ⊢
    have hnext : (done ++ [key]).Nodup := (List.nodup_append.mp hnodup).1
    have hnew : key ∉ done := fun hmem =>
      (List.nodup_append.mp hnext).2.2 key hmem key (List.mem_singleton_self key) rfl
    obtain ⟨mapCryptedKeys,ckey,hadd,hshows,hckey⟩ := h.holds.addNew
      (hproper.subset fun key hmem => hkeys key (List.mem_append_left _ hmem)) hnew
    -- the key is new to the crypted store, so that the loop goes on with the rest
    have hstep : CWallet.encryptLoop crypto vMasterKey ((key :: rest).map crypto.keyEntry) w =
        CWallet.encryptLoop crypto vMasterKey (rest.map crypto.keyEntry)
          (w.addCryptedKey crypto (crypto.pubKey key) (crypto.cryptedSecret vMasterKey key)).2 := by
      rw [List.map_cons, Crypto.keyEntry, CWallet.encryptLoop, encryptSecret_eq h.holds.length]
      dsimp only
      rw [← Crypto.cryptedSecret, hadd]
    rw [hstep, hadd]
    apply ih hkeys hnodup
    refine ⟨⟨h.holds.crypted, h.holds.length, hshows, hckey⟩,
      ⟨h.one.mapMasterKeys, h.one.nMasterKeyMaxID, h.one.mkey⟩, h.master, ?_⟩
    intro record hrecord
    obtain ⟨hold,hkept⟩ := List.mem_filter.mp hrecord
    obtain ⟨key',hkey',hnotdone,rfl⟩ := h.key record hold
    -- writing the crypted key erases the record of that key in the clear, and no other
    refine ⟨key', hkey', fun hmem => ?_, rfl⟩
    rcases List.mem_append.mp hmem with hmem | hmem
    · exact hnotdone hmem
    · exact of_decide_eq_true hkept (congrArg crypto.pubKey (List.mem_singleton.mp hmem))

/-- Every key of a plain wallet is encrypted, and none stays in the clear. -/
theorem PlainWallet.encryptKeys (h : PlainWallet crypto keys w) (hproper : ProperKeys crypto keys)
    (hlength : vMasterKey.length = 32)
    (hopened : OpenedBy crypto strWalletPassphrase vMasterKey kMasterKey) :
    ∃ w', CWallet.encryptKeys crypto ⟨w.store, OrderedMap.set 1 kMasterKey w.mapMasterKeys, 1,
        w.file.writeMasterKey 1 kMasterKey⟩ vMasterKey = (true, w') ∧
      CryptedWallet crypto keys strWalletPassphrase vMasterKey kMasterKey w' := by
  let rest := w.store.mapKeys.map Prod.snd
  have hentry : ∀ e ∈ w.store.mapKeys, ∃ key ∈ keys, crypto.keyEntry key = e := fun e he =>
    List.mem_map.mp (h.mapKeys.only e he)
  have hmap : w.store.mapKeys = rest.map crypto.keyEntry := by
    rw [List.map_map]
    refine (List.map_id _).symm.trans (List.map_congr_left fun e he => ?_)
    obtain ⟨key,-,rfl⟩ := hentry e he
    rfl
  have hmem : ∀ key, key ∈ rest ↔ key ∈ keys := by
    intro key
    constructor
    · intro hkey
      obtain ⟨e,he,rfl⟩ := List.mem_map.mp hkey
      obtain ⟨key',hmem,rfl⟩ := hentry e he
      exact hmem
    · intro hkey
      exact List.mem_map.mpr ⟨_, h.mapKeys.mem.mpr (List.mem_map_of_mem hkey), rfl⟩
  -- the store is in the order of the addresses, so that the loop meets each key once
  have hnodup : rest.Nodup := List.Nodup.of_map crypto.keyEntry (hmap ▸ h.ordered.nodup)
  have hstart : Encrypting crypto keys [] vMasterKey kMasterKey
      ⟨⟨w.store.mapKeys, w.store.mapCryptedKeys, w.store.vMasterKey, true⟩,
        OrderedMap.set 1 kMasterKey w.mapMasterKeys, 1, w.file.writeMasterKey 1 kMasterKey⟩ := by
    refine ⟨⟨rfl, hlength, ?_, ?_⟩, ⟨?_, rfl, ?_⟩, h.vMasterKey, ?_⟩
    · rw [h.mapCryptedKeys]
      exact Shows.nil
    · rw [WalletFile.writeMasterKey, h.ckey]
      exact Shows.nil
    · rw [h.mapMasterKeys]
      rfl
    · rw [WalletFile.writeMasterKey, h.mkey]
      rfl
    · intro record hrecord
      obtain ⟨key,hkey,rfl⟩ := List.mem_map.mp (h.key.only record hrecord)
      exact ⟨key, hkey, List.not_mem_nil, rfl⟩
  obtain ⟨w',hloop,hend⟩ := encryptLoop_eq hproper rest (fun key hkey => (hmem key).mp hkey) hnodup hstart
  have hplain : ¬ (w.store.mapCryptedKeys ≠ [] ∨ w.store.isCrypted = true) := by
    rintro (hkeys | hcrypted)
    · exact hkeys h.mapCryptedKeys
    · exact absurd (h.crypted.symm.trans hcrypted) Bool.false_ne_true
  have hall : ∀ {β : Type} (f : CKey → β) (e : β), e ∈ ([] ++ rest).map f ↔ e ∈ keys.map f := by
    intro β f e
    rw [List.nil_append, List.mem_map, List.mem_map]
    exact exists_congr fun key => and_congr_left' (hmem key)
  rw [CWallet.encryptKeys, if_neg hplain]
  dsimp only
  rw [← hmap] at hloop
  rw [hloop]
  refine ⟨_, rfl, ⟨hend.holds.crypted, hlength, hend.holds.mapCryptedKeys.congr (hall _),
    hend.holds.ckey.congr (hall _)⟩, ⟨hend.one.mapMasterKeys, hend.one.nMasterKeyMaxID, hend.one.mkey⟩,
    hopened, Or.inl hend.master, rfl, List.eq_nil_iff_forall_not_mem.mpr fun record hrecord => ?_⟩
  obtain ⟨key,hkey,hnotdone,-⟩ := hend.key record hrecord
  exact hnotdone ((hmem key).mpr hkey)

/-- An unlocked wallet takes every new key. -/
theorem CryptedWallet.generateKeys {newKeys : List CKey}
    (h : CryptedWallet crypto keys strWalletPassphrase vMasterKey kMasterKey w)
    (hproper : ProperKeys crypto (keys ++ newKeys)) (hnodup : (keys ++ newKeys).Nodup)
    (hunlocked : w.store.isLocked = false) :
    ∃ w', CWallet.generateKeys crypto newKeys w = (true, w') ∧
      CryptedWallet crypto (keys ++ newKeys) strWalletPassphrase vMasterKey kMasterKey w' := by
  -- induction on the keys still to be made; those made so far are in the wallet
  induction newKeys generalizing keys w with
  | nil =>
    rw [List.append_nil]
    exact ⟨w, rfl, h⟩
  | cons key newKeys ih =>
    have hsplit : keys ++ key :: newKeys = (keys ++ [key]) ++ newKeys := by
      rw [List.append_assoc]
      rfl
    rw [hsplit] at hproper hnodup ⊢
    have hnew : key ∉ keys := fun hmem => (List.nodup_append.mp (List.nodup_append.mp hnodup).1).2.2
      key hmem key (List.mem_singleton_self key) rfl
    obtain ⟨hadded,hadd,hstill⟩ := h.addKey (hproper.subset fun key hmem => List.mem_append_left _ hmem)
    rw [hunlocked, Bool.not_false, Bool.true_and, decide_eq_true hnew] at hadded
    rw [hadded, if_pos rfl] at hadd
    rw [CWallet.generateKeys, show w.addKey crypto key = (true, (w.addKey crypto key).2) from
      Prod.ext hadded rfl]
    exact ih hadd hproper hnodup (hstill.trans hunlocked)

theorem withMaster_isLocked (h : w.store.fUseCrypto = true) (vNow : CKeyingMaterial) :
    (w.withMaster vNow).store.isLocked = vNow.isEmpty := isLocked_eq (w := w.withMaster vNow) h

variable {io : CWallet.EncryptIO}

/-- A plain wallet is encrypted and locked, with new keys, or the file stays as it was. -/
theorem PlainWallet.encryptWallet (hcrypto : crypto.Lawful) (h : PlainWallet crypto keys w)
    (hproper : ProperKeys crypto (keys ++ io.newKeys)) (hnodup : (keys ++ io.newKeys).Nodup)
    (hlength : io.vMasterKey.length = 32) (hsalt : io.vchSalt.length = 8)
    (strWalletPassphrase : SecureString) :
    (io.fCommitted = false ∧ w.encryptWallet crypto strWalletPassphrase io = .exited w.file) ∨
    (io.fCommitted = true ∧ ∃ kMasterKey w', w.encryptWallet crypto strWalletPassphrase io =
        .returned true (CWallet.withMaster w' []) ∧
      CryptedWallet crypto (keys ++ io.newKeys) strWalletPassphrase io.vMasterKey kMasterKey w') := by
  have hold : ProperKeys crypto keys := hproper.subset fun key hmem => List.mem_append_left _ hmem
  obtain ⟨kMasterKey,hencrypt,hopened⟩ := @encrypt_opened crypto
    ⟨[], io.vchSalt, 0, deriveIterations io.nDeriveIterations⟩ strWalletPassphrase io.vMasterKey hcrypto
    hsalt (deriveIterations_pos _) rfl
  obtain ⟨encrypted,hkeys,hcrypted⟩ := h.encryptKeys hold hlength hopened
  have hplain : ¬ w.store.isCrypted = true := by
    rw [CCryptoKeyStore.isCrypted, h.crypted]
    exact Bool.false_ne_true
  rw [CWallet.encryptWallet, if_neg hplain]
  dsimp only
  rw [hencrypt, h.nMasterKeyMaxID]
  dsimp only
  rw [Nat.zero_add, hkeys]
  dsimp only
  cases io.fCommitted with
  | false => exact Or.inl ⟨rfl, rfl⟩
  | true =>
    -- the wallet is locked and unlocked again before its new keys are made
    have huse := hcrypted.holds.crypted
    have hlocked : CryptedWallet crypto keys strWalletPassphrase io.vMasterKey kMasterKey
        (encrypted.withMaster []) := hcrypted.withMaster (Or.inl rfl)
    have hopens : (encrypted.withMaster []).unlock crypto strWalletPassphrase =
        (true, encrypted.withMaster io.vMasterKey) :=
      hlocked.unlock_opens hcrypto hold.secret (withMaster_isLocked huse [])
    have hunlocked : (encrypted.withMaster io.vMasterKey).store.isLocked = false := by
      rw [withMaster_isLocked huse, List.isEmpty_eq_false_iff]
      exact List.ne_nil_of_length_pos (hlength ▸ Nat.succ_pos 31)
    obtain ⟨w',hgenerate,hend⟩ := (hcrypted.withMaster (Or.inr rfl)).generateKeys hproper hnodup hunlocked
    rw [Bool.not_true, if_neg Bool.false_ne_true, lock_withMaster huse]
    dsimp only
    refine Or.inr ⟨rfl, kMasterKey, w', ?_, hend⟩
    rw [hopens]
    dsimp only
    rw [CWallet.newKeyPool, hunlocked, if_neg Bool.false_ne_true, hgenerate]
    dsimp only
    rw [lock_withMaster hend.holds.crypted]

end Encrypt

section Run
variable {crypto : Crypto} {s : WalletRun}

inductive RunOk (crypto : Crypto) : WalletRun → Prop where
  | plain {keys : List CKey} {w : CWallet} (hproper : ProperKeys crypto keys)
      (h : PlainWallet crypto keys w) : RunOk crypto ⟨w, keys, none⟩
  | crypted {keys : List CKey} {w : CWallet} {strWalletPassphrase : SecureString}
      {vMasterKey : CKeyingMaterial} {kMasterKey : CMasterKey} (hproper : ProperKeys crypto keys)
      (hkeys : keys ≠ [])
      (h : CryptedWallet crypto keys strWalletPassphrase vMasterKey kMasterKey w) :
      RunOk crypto ⟨w, keys, some strWalletPassphrase⟩

theorem ProperKeys.concat {keys more : List CKey} (h : ProperKeys crypto keys)
    (hmore : ∀ key ∈ more, key.vchSecret.length = 32) (hapart : KeysApart crypto (keys ++ more)) :
    ProperKeys crypto (keys ++ more) :=
  ⟨fun key hkey => (List.mem_append.mp hkey).elim (h.secret key) (hmore key), hapart⟩

theorem exec_addKey (s : WalletRun) (key : CKey) : WalletOp.exec crypto s (.addKey key) =
    ⟨(s.wallet.addKey crypto key).2,
      if (s.wallet.addKey crypto key).1 then s.keys ++ [key] else s.keys, s.passphrase⟩ := by
  rw [WalletOp.exec]
  rcases s.wallet.addKey crypto key with ⟨_ | _,w⟩
  · rfl
  · rfl

theorem exec_change (s : WalletRun) (strOld strNew : SecureString) (n : ℕ) :
    WalletOp.exec crypto s (.changeWalletPassphrase strOld strNew n) =
    ⟨(s.wallet.changeWalletPassphrase crypto strOld strNew n).2, s.keys,
      if (s.wallet.changeWalletPassphrase crypto strOld strNew n).1 then some strNew
      else s.passphrase⟩ := by
  rw [WalletOp.exec]
  rcases s.wallet.changeWalletPassphrase crypto strOld strNew n with ⟨_ | _,w⟩
  · rfl
  · rfl

theorem RunOk.start : RunOk crypto WalletRun.start := by
  refine .plain ⟨fun _ h => absurd h List.not_mem_nil, fun _ h => absurd h List.not_mem_nil⟩ ?_
  exact ⟨rfl, List.Pairwise.nil, Shows.nil, rfl, rfl, rfl, rfl, Shows.nil, rfl, rfl⟩

theorem RunOk.exec_plain (hcrypto : crypto.Lawful) {keys : List CKey} {w : CWallet}
    (hproper : ProperKeys crypto keys) (h : PlainWallet crypto keys w) (op : WalletOp)
    (hop : op.Allowed crypto ⟨w, keys, none⟩) : RunOk crypto (op.exec crypto ⟨w, keys, none⟩) := by
  have hplain : ¬ w.store.isCrypted = true := by
    rw [CCryptoKeyStore.isCrypted, h.crypted]
    exact Bool.false_ne_true
  cases op with
  | addKey key =>
    have hmore := hproper.concat (fun _ hmem => List.mem_singleton.mp hmem ▸ hop.1) hop.2
    rw [exec_addKey]
    refine .plain ?_ (h.addKey hmore).2
    dsimp only
    split_ifs
    · exact hmore
    · exact hproper
  | encryptWallet strWalletPassphrase io =>
    obtain ⟨hkeys,hlength,hsalt,hsecret,hapart,hnodup⟩ := hop
    have hmore := hproper.concat hsecret hapart
    rw [WalletOp.exec]
    obtain ⟨-,heq⟩ | ⟨-,kMasterKey,w',heq,hcrypted⟩ :=
      h.encryptWallet hcrypto hmore hnodup hlength hsalt strWalletPassphrase
    -- without the commit the process exits, and starts again from the plain file
    · rw [heq]
      exact .plain hproper (h.load hproper).2
    · rw [heq]
      exact .crypted hmore hkeys (hcrypted.withMaster (Or.inl rfl))
  | lock => exact absurd hop hplain
  | unlock strWalletPassphrase =>
    have hunlock : w.unlock crypto strWalletPassphrase = (false, w) := by
      rw [CWallet.unlock, CCryptoKeyStore.isLocked, CCryptoKeyStore.isCrypted, h.crypted]
      rfl
    rw [WalletOp.exec, hunlock]
    exact .plain hproper h
  | changeWalletPassphrase strOld strNew n => exact absurd hop.1 hplain
  | restart => exact .plain hproper (h.load hproper).2

theorem RunOk.exec_crypted (hcrypto : crypto.Lawful) {keys : List CKey} {w : CWallet}
    {strWalletPassphrase : SecureString} {vMasterKey : CKeyingMaterial} {kMasterKey : CMasterKey}
    (hproper : ProperKeys crypto keys) (hkeys : keys ≠ [])
    (h : CryptedWallet crypto keys strWalletPassphrase vMasterKey kMasterKey w) (op : WalletOp)
    (hop : op.Allowed crypto ⟨w, keys, some strWalletPassphrase⟩) :
    RunOk crypto (op.exec crypto ⟨w, keys, some strWalletPassphrase⟩) := by
  cases op with
  | addKey key =>
    have hmore := hproper.concat (fun _ hmem => List.mem_singleton.mp hmem ▸ hop.1) hop.2
    rw [exec_addKey]
    refine .crypted ?_ ?_ (h.addKey hmore).2.1
    · dsimp only
      split_ifs
      · exact hmore
      · exact hproper
    · dsimp only
      split_ifs
      · exact List.append_ne_nil_of_left_ne_nil hkeys _
      · exact hkeys
  | encryptWallet strGiven io =>
    have heq : w.encryptWallet crypto strGiven io = .returned false w := if_pos h.holds.crypted
    rw [WalletOp.exec, heq]
    exact .crypted hproper hkeys h
  | lock =>
    rw [WalletOp.exec, lock_withMaster h.holds.crypted]
    exact .crypted hproper hkeys (h.withMaster (Or.inl rfl))
  | unlock strGiven =>
    have hgiven := hop.imp_left fun heq => (Option.some.inj heq).symm
    exact .crypted hproper hkeys (h.unlock hcrypto hproper.secret hgiven)
  | changeWalletPassphrase strOld strNew n =>
    have hgiven := hop.2.imp_left fun heq => (Option.some.inj heq).symm
    obtain ⟨kNew,hnew⟩ := h.change hcrypto hproper.secret hgiven
    have hsome : (if (w.changeWalletPassphrase crypto strOld strNew n).1 then some strNew
        else some strWalletPassphrase) =
        some (if (w.changeWalletPassphrase crypto strOld strNew n).1 then strNew
          else strWalletPassphrase) := by
      split_ifs
      · rfl
      · rfl
    rw [exec_change, hsome]
    exact .crypted hproper hkeys hnew
  | restart => exact .crypted hproper hkeys (h.load hproper hkeys).2.1

theorem RunOk.exec (hcrypto : crypto.Lawful) (h : RunOk crypto s) (op : WalletOp)
    (hop : op.Allowed crypto s) : RunOk crypto (op.exec crypto s) := by
  cases h with
  | plain hproper h => exact RunOk.exec_plain hcrypto hproper h op hop
  | crypted hproper hkeys h => exact RunOk.exec_crypted hcrypto hproper hkeys h op hop

theorem WalletReaches.ok (hcrypto : crypto.Lawful) (h : WalletReaches crypto s) : RunOk crypto s := by
  induction h with
  | start => exact RunOk.start
  | step _ op hop ih => exact ih.exec hcrypto op hop

end Run

section Promise
variable {crypto : Crypto} {s : WalletRun}

/-- The wallet after the program has started again. -/
def WalletRun.reloaded (crypto : Crypto) (s : WalletRun) : CWallet :=
  (CWallet.loadWallet crypto s.wallet.file).2

theorem Shows.isSome_iff {keys : List CKey} {γ : Type} {f : CKey → CKeyID × γ}
    {m : List (CKeyID × γ)} (h : Shows m (keys.map f)) (hf : ∀ key, (f key).1 = crypto.keyID key)
    (address : CKeyID) :
    (m.lookup address).isSome = true ↔ ∃ key ∈ keys, crypto.keyID key = address := by
  rw [Option.isSome_iff_exists]
  constructor
  · rintro ⟨value,hlookup⟩
    obtain ⟨key,hkey,heq⟩ := List.mem_map.mp (h.lookup_mem hlookup)
    exact ⟨key, hkey, (hf key).symm.trans (congrArg Prod.fst heq)⟩
  · rintro ⟨key,hkey,rfl⟩
    refine ⟨(f key).2, ?_⟩
    rw [← hf key]
    exact h.finds _ (List.mem_map_of_mem hkey)

theorem PlainWallet.haveKey {keys : List CKey} {w : CWallet} (h : PlainWallet crypto keys w)
    (address : CKeyID) :
    w.store.haveKey address = true ↔ ∃ key ∈ keys, crypto.keyID key = address := by
  rw [CCryptoKeyStore.haveKey, CCryptoKeyStore.isCrypted, h.crypted, Bool.not_false, if_pos rfl]
  exact Shows.isSome_iff h.mapKeys (fun _ => rfl) address

theorem HoldsCrypted.haveKey {keys : List CKey} {vMasterKey : CKeyingMaterial} {w : CWallet}
    (h : HoldsCrypted crypto keys vMasterKey w) (address : CKeyID) :
    w.store.haveKey address = true ↔ ∃ key ∈ keys, crypto.keyID key = address := by
  rw [CCryptoKeyStore.haveKey, CCryptoKeyStore.isCrypted, h.crypted, Bool.not_true,
    if_neg Bool.false_ne_true]
  exact Shows.isSome_iff h.mapCryptedKeys (fun _ => rfl) address

end Promise

section ToyCipher

end ToyCipher

end Candypool.Wallet.Crypted
