import Candypool.Wallet.Encryption

/-! A wallet that is not encrypted: its file has each key in the clear, and it comes back from the file. -/
namespace Candypool.Wallet.Crypted
open Candypool.Prime Candypool.Core Candypool.Lib Candypool.Lib.OrderedMap

section Invariant
variable (crypto : Crypto)

def Crypto.keyRecord (key : CKey) : CPubKey × CKey := (crypto.pubKey key, key)

structure ProperKeys (keys : List CKey) : Prop where
  secret : ∀ key ∈ keys, key.vchSecret.length = 32
  apart : KeysApart crypto keys

structure PlainWallet (keys : List CKey) (w : CWallet) : Prop where
  crypted : w.store.fUseCrypto = false
  ordered : Ordered w.store.mapKeys
  mapKeys : Shows w.store.mapKeys (keys.map crypto.keyEntry)
  vMasterKey : w.store.vMasterKey = []
  mapCryptedKeys : w.store.mapCryptedKeys = []
  mapMasterKeys : w.mapMasterKeys = []
  nMasterKeyMaxID : w.nMasterKeyMaxID = 0
  key : Shows w.file.key (keys.map crypto.keyRecord)
  ckey : w.file.ckey = []
  mkey : w.file.mkey = []

end Invariant

section Keys
variable {crypto : Crypto} {keys : List CKey} {key : CKey} {vMasterKey : CKeyingMaterial}

theorem ProperKeys.subset {some : List CKey} (h : ProperKeys crypto keys)
    (hsome : ∀ key ∈ some, key ∈ keys) : ProperKeys crypto some :=
  ⟨fun key hkey => h.secret key (hsome key hkey),
    fun key hkey key' hkey' => h.apart key (hsome key hkey) key' (hsome key' hkey')⟩

theorem functional_map {β γ : Type} {f : CKey → β × γ}
    (h : ∀ key ∈ keys, ∀ key' ∈ keys, (f key).1 = (f key').1 → key = key') :
    Functional (keys.map f) := by
  intro e he e' he' heq
  obtain ⟨key,hkey,rfl⟩ := List.mem_map.mp he
  obtain ⟨key',hkey',rfl⟩ := List.mem_map.mp he'
  rw [h key hkey key' hkey' heq]

/-- A key that is there already adds no entry. -/
theorem mem_map_concat {β : Type} (f : CKey → β) (h : key ∈ keys) (e : β) :
    e ∈ keys.map f ++ [f key] ↔ e ∈ keys.map f := by
  rw [List.mem_append, List.mem_singleton, or_iff_left_iff_imp]
  rintro rfl
  exact List.mem_map_of_mem h

theorem ProperKeys.same (h : ProperKeys crypto (keys ++ [key])) :
    ∀ key' ∈ keys, crypto.keyID key' = crypto.keyID key → key' = key := fun key' hkey' heq =>
  h.apart key' (List.mem_append_left _ hkey') key
    (List.mem_append_right _ (List.mem_singleton_self key)) heq

/-- No other key has the public key of a new one. -/
theorem pubKey_new {γ : Type} {f : CKey → CPubKey × γ} (hf : ∀ key, (f key).1 = crypto.pubKey key)
    (hproper : ProperKeys crypto (keys ++ [key])) (hnew : key ∉ keys) :
    ∀ e ∈ keys.map f, e.1 ≠ crypto.pubKey key := by
  intro e he heq
  obtain ⟨key',hkey',rfl⟩ := List.mem_map.mp he
  rw [hf] at heq
  exact hnew (hproper.same key' hkey' (congrArg crypto.getID heq) ▸ hkey')

theorem Shows.addRecord {γ : Type} {f : CKey → CPubKey × γ} {records : List (CPubKey × γ)}
    (h : Shows records (keys.map f)) (hf : ∀ key, (f key).1 = crypto.pubKey key)
    (hproper : ProperKeys crypto (keys ++ [key])) (hnew : key ∉ keys) :
    Shows (records ++ [f key]) ((keys ++ [key]).map f) := by
  have hfirst := pubKey_new hf hproper hnew
  rw [← hf key] at hfirst
  rw [List.map_append]
  exact h.append hfirst

/-- A map with an entry for each key, after one more key. -/
theorem Shows.addKey {α γ : Type} [BEq α] [LawfulBEq α] [DecidableEq α] [LT α] [DecidableLT α]
    {f : CKey → α × γ}
    {m : List (α × γ)} (h : Shows m (keys.map f))
    (hf : ∀ key' ∈ keys, (f key').1 = (f key).1 → key' = key) :
    Shows (OrderedMap.set (f key).1 (f key).2 m) ((keys ++ [key]).map f) := by
  rw [List.map_append]
  apply h.set
  intro e he heq
  obtain ⟨key',hkey',rfl⟩ := List.mem_map.mp he
  rw [hf key' hkey' heq]

theorem Shows.sameKey {α γ : Type} [BEq α] [LawfulBEq α] {f : CKey → α × γ} {m : List (α × γ)}
    (h : Shows m ((keys ++ [key]).map f)) (hkey : key ∈ keys) : Shows m (keys.map f) := by
  rw [List.map_append] at h
  exact h.congr (mem_map_concat f hkey)

end Keys

section Plain
variable {crypto : Crypto} {keys : List CKey} {key : CKey} {w : CWallet}

/-- A key that is there already is refused by the file, and nothing changes. -/
theorem PlainWallet.addKey (h : PlainWallet crypto keys w) (hproper : ProperKeys crypto (keys ++ [key])) :
    (w.addKey crypto key).1 = decide (key ∉ keys) ∧
      PlainWallet crypto (if (w.addKey crypto key).1 then keys ++ [key] else keys)
        (w.addKey crypto key).2 := by
  have hmap : Shows (OrderedMap.set (crypto.keyID key) key w.store.mapKeys)
      ((keys ++ [key]).map crypto.keyEntry) := Shows.addKey h.mapKeys hproper.same
  have hordered := h.ordered.set (crypto.keyID key) key
  have hplain : w.store.isCrypted = false := h.crypted
  rw [CWallet.addKey, hplain, Bool.not_false, if_pos rfl, WalletFile.writeKey]
  by_cases hkey : key ∈ keys
  · have hlookup := h.key.finds _ (List.mem_map_of_mem hkey)
    rw [show w.file.key.lookup (crypto.pubKey key) = some key from hlookup, Option.isSome_some,
      if_pos rfl]
    exact ⟨(decide_eq_false (not_not.mpr hkey)).symm, h.crypted, hordered, Shows.sameKey hmap hkey,
      h.vMasterKey, h.mapCryptedKeys, h.mapMasterKeys, h.nMasterKeyMaxID, h.key, h.ckey, h.mkey⟩
  · have hlookup := h.key.lookup_none (pubKey_new (fun _ => rfl) hproper hkey)
    rw [hlookup, Option.isSome_none, if_neg Bool.false_ne_true]
    exact ⟨(decide_eq_true hkey).symm, h.crypted, hordered, hmap, h.vMasterKey, h.mapCryptedKeys,
      h.mapMasterKeys, h.nMasterKeyMaxID, Shows.addRecord h.key (fun _ => rfl) hproper hkey, h.ckey,
      h.mkey⟩

theorem PlainWallet.getKey (h : PlainWallet crypto keys w) (hkey : key ∈ keys) :
    w.store.getKey crypto (crypto.keyID key) = some key := by
  rw [CCryptoKeyStore.getKey, CCryptoKeyStore.isCrypted, h.crypted, Bool.not_false, if_pos rfl]
  exact h.mapKeys.finds _ (List.mem_map_of_mem hkey)

theorem loadKeys_eq {records : List (CPubKey × CKey)}
    (hrecords : ∀ record ∈ records, crypto.pubKey record.2 = record.1)
    (hplain : w.store.fUseCrypto = false) : CWallet.loadRecords (CWallet.loadKey crypto) records w =
      (true, ⟨⟨(records.map fun record => crypto.keyEntry record.2).foldl
          (fun m e => OrderedMap.set e.1 e.2 m) w.store.mapKeys, w.store.mapCryptedKeys,
        w.store.vMasterKey, w.store.fUseCrypto⟩, w.mapMasterKeys, w.nMasterKeyMaxID, w.file⟩) := by
  induction records generalizing w with
  | nil => rfl
  | cons record records ih =>
    have hload : CWallet.loadKey crypto w record =
        (true, { w with store := w.store.addBasicKey crypto record.2 }) := by
      rw [CWallet.loadKey, if_neg (not_not.mpr (hrecords record List.mem_cons_self)), if_neg]
      rw [CCryptoKeyStore.isCrypted, hplain]
      exact Bool.false_ne_true
    have hrest := @ih { w with store := w.store.addBasicKey crypto record.2 }
      (fun record hmem => hrecords record (List.mem_cons_of_mem _ hmem)) hplain
    rw [CWallet.loadRecords, hload]
    dsimp only
    rw [hrest]
    rfl

theorem ordered_foldl {α β : Type} [LinearOrder α] {m entries : List (α × β)} (h : Ordered m) :
    Ordered (entries.foldl (fun m e => OrderedMap.set e.1 e.2 m) m) := by
  induction entries generalizing m with
  | nil => exact h
  | cons e entries ih => exact ih (h.set e.1 e.2)

/-- A map that is filled from the records of a file. -/
theorem shows_foldl {γ δ : Type} {f : CKey → CPubKey × γ} {g : CPubKey × γ → CKeyID × δ}
    {records : List (CPubKey × γ)} (h : Shows records (keys.map f))
    (hg : ∀ key ∈ keys, ∀ key' ∈ keys, (g (f key)).1 = (g (f key')).1 → key = key') :
    Shows ((records.map g).foldl (fun m e => OrderedMap.set e.1 e.2 m) [])
      (keys.map fun key => g (f key)) := by
  have hmem : ∀ e, e ∈ [] ++ records.map g ↔ e ∈ keys.map fun key => g (f key) := by
    intro e
    rw [List.nil_append, List.mem_map, List.mem_map]
    constructor
    · rintro ⟨record,hrecord,rfl⟩
      obtain ⟨key,hkey,rfl⟩ := List.mem_map.mp (h.mem.mp hrecord)
      exact ⟨key, hkey, rfl⟩
    · rintro ⟨key,hkey,rfl⟩
      exact ⟨f key, h.mem.mpr (List.mem_map_of_mem hkey), rfl⟩
  have hfun : Functional ([] ++ records.map g) := by
    intro e he e' he'
    exact functional_map hg e ((hmem e).mp he) e' ((hmem e').mp he')
  exact (Shows.foldl Shows.nil hfun).congr hmem

/-- A plain wallet comes back from its file. -/
theorem PlainWallet.load (h : PlainWallet crypto keys w) (hproper : ProperKeys crypto keys) :
    (CWallet.loadWallet crypto w.file).1 = true ∧
      PlainWallet crypto keys (CWallet.loadWallet crypto w.file).2 := by
  have hrecords : ∀ record ∈ w.file.key, crypto.pubKey record.2 = record.1 := by
    intro record hrecord
    obtain ⟨key,-,rfl⟩ := List.mem_map.mp (h.key.mem.mp hrecord)
    rfl
  have hmap : Shows ((w.file.key.map fun record => crypto.keyEntry record.2).foldl
      (fun m e => OrderedMap.set e.1 e.2 m) []) (keys.map crypto.keyEntry) :=
    shows_foldl h.key hproper.apart
  have hload : CWallet.loadRecords (CWallet.loadKey crypto) w.file.key (.new w.file) = _ :=
    loadKeys_eq hrecords rfl
  rw [CWallet.loadWallet, hload, h.ckey, h.mkey]
  exact ⟨rfl, rfl, ordered_foldl List.Pairwise.nil, hmap, rfl, rfl, rfl, rfl, h.key, h.ckey, h.mkey⟩

end Plain

end Candypool.Wallet.Crypted
