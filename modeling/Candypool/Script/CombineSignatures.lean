import Candypool.Lib.FirstFit
import Candypool.Script.StackLeft

/-! `CombineSignatures`: two partly signed inputs in one. For multisig scripts the order and the
overlap of the two do not matter, and nothing that is there is lost. -/
namespace Candypool.Script
open Candypool.Prime Candypool.Core Candypool.Lib

def op0 : CScript := [0]

/-- `PushAll`. A stack is a list with its top first, which is pushed last. -/
def pushAll (values : List Valtype) : CScript := values.reverse.flatMap pushData

/-- `insert` of a `set<valtype>`, a list in the order of its bytes. -/
def setInsert (allsigs : List Valtype) (v : Valtype) : List Valtype :=
  if v ∈ allsigs then allsigs else allsigs.orderedInsert (· ≤ ·) v

/-- Every signature of the two stacks once. -/
def allSigs (sigs1 sigs2 : List Valtype) : List Valtype :=
  ((sigs1.reverse ++ sigs2.reverse).filter fun v => v ≠ []).foldl setInsert []

section Combine
variable (sig : SigEnv) (env : EvalEnv) (txTo : CTransaction) (nIn : ℕ)

/-- `CheckSig` with no hash type asked for, which is the same with and without its cache. -/
def signs (scriptPubKey : CScript) (vchSig vchPubKey : Valtype) : Bool :=
  checkSigAlone sig vchSig vchPubKey scriptPubKey txTo nIn 0

def combineMultisig (scriptPubKey : CScript) (vSolutions sigs1 sigs2 : List Valtype) : CScript :=
  let nSigsRequired := ((vSolutions.headD []).headD 0).toNat
  let pubkeys := (vSolutions.drop 1).take (vSolutions.length-2)
  -- a map of pubkey -> signature, by matching sigs to pubkeys
  let sigs := (allSigs sigs1 sigs2).foldl
    (assignFirst (signs sig txTo nIn scriptPubKey) pubkeys) []
  let merged := (pubkeys.filterMap fun pubkey => sigs.lookup pubkey).take nSigsRequired
  op0 ++ merged.flatMap pushData ++ (List.replicate (nSigsRequired-merged.length) op0).flatten

/-- `CombineSignatures` on the stacks; the result of `Solver` is not looked at. -/
def combineStacks : List Valtype → CScript → TxnOutType → List Valtype → List Valtype → CScript
  | sigs1, _, .nonstandard, _, sigs2 =>
    if sigs1.length ≥ sigs2.length then pushAll sigs1 else pushAll sigs2
  | sigs1, _, .pubkey, _, sigs2 | sigs1, _, .pubkeyhash, _, sigs2 =>
    if sigs1 = [] ∨ sigs1.getLastD [] = [] then pushAll sigs2 else pushAll sigs1
  | sigs1, scriptPubKey, .multisig, vSolutions, sigs2 =>
    combineMultisig sig txTo nIn scriptPubKey vSolutions sigs1 sigs2
  | [], _, .scripthash, _, sigs2 => pushAll sigs2
  | spk :: sigs1, _, .scripthash, _, sigs2 =>
    if spk = [] then pushAll sigs2
    else if sigs2.headD [] = [] then pushAll (spk :: sigs1)
    else
      let (_,txType2,vSolutions2) := solver spk
      combineStacks sigs1 spk txType2 vSolutions2 sigs2.tail ++ pushData spk

/-- What `EvalScript` of the two scripts is given. -/
def combineContext : EvalContext := ⟨⟨1, [], [], 0⟩, 0, ⟨false, true, false⟩, 0⟩

def combineSignatures (scriptPubKey scriptSig1 scriptSig2 : CScript) : CScript :=
  let (_,txType,vSolutions) := solver scriptPubKey
  let stack1 := stackLeft (sig.evalEnv env) combineContext scriptSig1
  let stack2 := stackLeft (sig.evalEnv env) combineContext scriptSig2
  combineStacks sig txTo nIn stack1 scriptPubKey txType vSolutions stack2

end Combine

section Sets
variable {v : Valtype} {sigs sigs1 sigs2 : List Valtype}

/-- A set is in order and holds nothing twice. -/
structure IsSet (sigs : List Valtype) : Prop where
  sorted : sigs.Pairwise (· ≤ ·)
  nodup : sigs.Nodup

theorem IsSet.eq_of_mem_iff (h1 : IsSet sigs1) (h2 : IsSet sigs2)
    (hmem : ∀ v, v ∈ sigs1 ↔ v ∈ sigs2) : sigs1 = sigs2 :=
  ((List.perm_ext_iff_of_nodup h1.nodup h2.nodup).mpr hmem).eq_of_pairwise' h1.sorted h2.sorted

theorem mem_setInsert {a : Valtype} : v ∈ setInsert sigs a ↔ v = a ∨ v ∈ sigs := by
  rw [setInsert]
  split_ifs with hin
  · exact ⟨Or.inr, fun h => h.elim (fun heq => heq ▸ hin) id⟩
  · exact List.mem_orderedInsert _

theorem IsSet.insert (h : IsSet sigs) (a : Valtype) : IsSet (setInsert sigs a) := by
  rw [setInsert]
  split_ifs with hin
  · exact h
  · refine ⟨h.sorted.orderedInsert a, ?_⟩
    exact (List.perm_orderedInsert _ a sigs).nodup_iff.mpr (List.nodup_cons.mpr ⟨hin,h.nodup⟩)

theorem foldl_setInsert (h : IsSet sigs) (added : List Valtype) :
    IsSet (added.foldl setInsert sigs) ∧ ∀ v, v ∈ added.foldl setInsert sigs ↔ v ∈ added ∨ v ∈ sigs := by
  induction added generalizing sigs with
  | nil => exact ⟨h, fun v => by simp⟩
  | cons a added ih =>
    obtain ⟨hset,hmem⟩ := ih (h.insert a)
    refine ⟨hset, fun v => ?_⟩
    rw [List.foldl_cons, hmem, mem_setInsert, List.mem_cons]
    tauto

theorem allSigs_isSet : IsSet (allSigs sigs1 sigs2) := (foldl_setInsert ⟨.nil,.nil⟩ _).1

theorem mem_allSigs : v ∈ allSigs sigs1 sigs2 ↔ v ∈ sigs1 ++ sigs2 ∧ v ≠ [] := by
  rw [allSigs, (foldl_setInsert ⟨.nil,.nil⟩ _).2]
  simp only [List.mem_filter, List.mem_append, List.mem_reverse, decide_eq_true_eq, List.not_mem_nil,
    or_false]

theorem allSigs_comm : allSigs sigs1 sigs2 = allSigs sigs2 sigs1 := by
  apply allSigs_isSet.eq_of_mem_iff allSigs_isSet
  intro v
  rw [mem_allSigs, mem_allSigs, List.mem_append, List.mem_append, or_comm]

end Sets

section Merge
variable {sig : SigEnv} {env : EvalEnv} {txTo : CTransaction} {nIn : ℕ} {script : CScript}
  {nRequired b : UInt8} {keys sigs1 sigs2 : List Valtype}

/-- The signatures that are taken over. -/
def merged (sig : SigEnv) (txTo : CTransaction) (nIn : ℕ) (script : CScript) (keys : List Valtype)
    (nRequired : UInt8) (allsigs : List Valtype) : List Valtype :=
  firstFits (signs sig txTo nIn script) keys allsigs nRequired.toNat

/-- What the combined script pushes: an element that is taken for nothing, the signatures, and empty
placeholders for those that are missing. -/
def mergedValues (nRequired : UInt8) (sigs : List Valtype) : List Valtype :=
  [] :: (sigs ++ List.replicate (nRequired.toNat-sigs.length) [])

theorem signs_nil (vchPubKey : Valtype) : signs sig txTo nIn script [] vchPubKey = false := rfl

theorem combineMultisig_eq (hone : FitsOne (signs sig txTo nIn script) keys (sigs1 ++ sigs2)) :
    combineMultisig sig txTo nIn script ([nRequired] :: (keys ++ [[b]])) sigs1 sigs2 =
      (mergedValues nRequired (merged sig txTo nIn script keys nRequired
        (allSigs sigs1 sigs2))).flatMap pushData := by
  have hkeys : (([nRequired] :: (keys ++ [[b]])).drop 1).take
      (([nRequired] :: (keys ++ [[b]])).length-2) = keys := by
    have hlen : ([nRequired] :: (keys ++ [[b]])).length-2 = keys.length := by simp
    rw [hlen, List.drop_one, List.tail_cons, List.take_left]
  have hlookup : ∀ vchPubKey ∈ keys, ((allSigs sigs1 sigs2).foldl
      (assignFirst (signs sig txTo nIn script) keys) []).lookup vchPubKey =
        firstFit (signs sig txTo nIn script) (allSigs sigs1 sigs2) vchPubKey :=
    fun vchPubKey hmem => lookup_assigned (hone.subset fun v hv => (mem_allSigs.mp hv).1) hmem
  have hempty : pushData [] = op0 := by decide
  rw [combineMultisig]
  simp only [hkeys, List.filterMap_congr hlookup]
  simp only [mergedValues, merged, firstFits, List.flatMap_cons, List.flatMap_append,
    List.flatMap_replicate, hempty, List.headD_cons, List.append_assoc]

theorem merged_length_le (allsigs : List Valtype) :
    (merged sig txTo nIn script keys nRequired allsigs).length ≤ nRequired.toNat := firstFits_length_le

theorem mergedValues_length {sigs : List Valtype} (h : sigs.length ≤ nRequired.toNat) :
    (mergedValues nRequired sigs).length = nRequired.toNat+1 := by
  rw [mergedValues, List.length_cons, List.length_append, List.length_replicate]
  omega

theorem mem_mergedValues {sigs : List Valtype} {v : Valtype} (h : v ∈ mergedValues nRequired sigs) :
    v = [] ∨ v ∈ sigs := by
  rw [mergedValues] at h
  rcases List.mem_cons.mp h with hnil | h
  · exact Or.inl hnil
  · rcases List.mem_append.mp h with hsig | hfill
    · exact Or.inr hsig
    · exact Or.inl (List.eq_of_mem_replicate hfill)

end Merge

section Output

/-- The output script that asks for a script with this hash. -/
def payToScriptHash (env : EvalEnv) (script : CScript) : CScript :=
  UInt8.ofNat opHash160 :: (pushData (evalHash env script .hash160) ++ [UInt8.ofNat opEqual])

/-- The output that is spent has the script itself, or its hash. -/
def outputScript (env : EvalEnv) (hashed : Bool) (script : CScript) : CScript :=
  if hashed then payToScriptHash env script else script

/-- What an input leaves on the stack beside its signatures: the script where the output has its
hash. -/
def carried (hashed : Bool) (script : CScript) (sigs : List Valtype) : List Valtype :=
  if hashed then script :: sigs else sigs

variable (env : EvalEnv) (script : CScript)

theorem hash160_length : (evalHash env script .hash160).length = 20 := by
  rw [evalHash, Vector.length_toList]

theorem payToScriptHash_eq : payToScriptHash env script =
    UInt8.ofNat opHash160 :: 0x14 :: (evalHash env script .hash160 ++ [UInt8.ofNat opEqual]) := by
  have hlen := hash160_length env script
  rw [payToScriptHash, pushData]
  dsimp only
  rw [hlen]
  rfl

theorem isPayToScriptHash_payToScriptHash : isPayToScriptHash (payToScriptHash env script) = true := by
  have hlen := hash160_length env script
  rw [payToScriptHash_eq]
  generalize evalHash env script .hash160 = hash at hlen
  have hlast : (hash ++ [UInt8.ofNat opEqual])[20]? = some (UInt8.ofNat opEqual) := by
    rw [List.getElem?_append_right (by omega), hlen]
    rfl
  simp only [isPayToScriptHash, List.length_cons, List.length_append, hlen, List.length_nil,
    List.map_cons, List.getElem?_cons_zero, List.getElem?_cons_succ, List.getElem?_map, hlast]
  decide

theorem solver_payToScriptHash : ∃ vSolutions,
    solver (payToScriptHash env script) = (true,.scripthash,vSolutions) :=
  ⟨_, if_pos (isPayToScriptHash_payToScriptHash env script)⟩

end Output

/-- Two push-only inputs of one output with a multisig script, and the signatures they leave. No
signature is valid for two keys, and none is pushed in the script itself. -/
structure PartlySigned (sig : SigEnv) (env : EvalEnv) (txTo : CTransaction) (nIn : ℕ) (hashed : Bool)
    (script : CScript) (nRequired : UInt8) (keys : List Valtype) (scriptSig1 scriptSig2 : CScript)
    (sigs1 sigs2 : List Valtype) : Prop where
  solved : ∃ b, solver script = (true,.multisig,[nRequired] :: (keys ++ [[b]]))
  distinct : keys.Nodup
  pushOnly1 : isPushOnly scriptSig1 = true
  pushOnly2 : isPushOnly scriptSig2 = true
  left1 : stackLeft (sig.evalEnv env) combineContext scriptSig1 = carried hashed script sigs1
  left2 : stackLeft (sig.evalEnv env) combineContext scriptSig2 = carried hashed script sigs2
  one_key : FitsOne (signs sig txTo nIn script) keys (sigs1 ++ sigs2)
  apart : ∀ vchSig ∈ sigs1 ++ sigs2, vchSig ≠ [] → dropSignature script vchSig = script

section Result
variable {sig : SigEnv} {env : EvalEnv} {txTo : CTransaction} {nIn : ℕ} {hashed : Bool}
  {script scriptSig1 scriptSig2 : CScript} {nRequired : UInt8} {keys sigs1 sigs2 : List Valtype}

/-- What `Solver` finds is what the script is read as. -/
theorem multisigReads_of_solved {b : UInt8}
    (h : solver script = (true,.multisig,[nRequired] :: (keys ++ [[b]]))) :
    ∃ keyOps, MultisigReads script nRequired.toNat keyOps ∧ keyOps.map Prod.snd = keys := by
  obtain ⟨m,keyOps,hreads,heq⟩ := multisigReads_of_solver h
  obtain ⟨hfirst,hrest⟩ := List.cons.inj heq
  have hm : m ≤ 16 := hreads.m_le.trans hreads.count_le
  obtain rfl := (List.cons.inj hfirst).1
  rw [toNat_smallInteger hm]
  exact ⟨keyOps, hreads, (List.append_inj_left' hrest rfl).symm⟩

theorem script_ne_nil {m : ℕ} {keyOps : List (ℕ × Valtype)} (h : MultisigReads script m keyOps) :
    script ≠ [] := by
  rintro rfl
  have hlen := h.reads.length_ops_le
  simp at hlen

/-- Two stacks with the signatures, the scripts taken off, are combined as those of the script. -/
theorem combineStacks_carried {vSolutions : List Valtype}
    (h : solver script = (true,.multisig,vSolutions)) (hne : script ≠ []) :
    combineStacks sig txTo nIn (carried hashed script sigs1) (outputScript env hashed script)
      (solver (outputScript env hashed script)).2.1 (solver (outputScript env hashed script)).2.2
      (carried hashed script sigs2) =
        combineMultisig sig txTo nIn script vSolutions sigs1 sigs2 ++
          (if hashed then pushData script else []) := by
  have hinner (sigs1 sigs2 : List Valtype) : combineStacks sig txTo nIn sigs1 script .multisig vSolutions
      sigs2 = combineMultisig sig txTo nIn script vSolutions sigs1 sigs2 := by
    cases sigs1 <;> rfl
  cases hashed with
  | false =>
    simp only [carried, outputScript, Bool.false_eq_true, if_false, h, hinner, List.append_nil]
  | true =>
    obtain ⟨vSolutions',hhash⟩ := solver_payToScriptHash env script
    simp only [carried, outputScript, if_true, hhash, combineStacks, if_neg hne, List.headD_cons, h,
      List.tail_cons, hinner]

/-- A stack without the script that has the hash is passed over. -/
theorem combineStacks_empty {stack : List Valtype} (hne : script ≠ []) (hempty : stack.headD [] = [])
    (sig : SigEnv) (txTo : CTransaction) (nIn : ℕ) (scriptPubKey : CScript)
    (vSolutions sigs1 : List Valtype) :
    combineStacks sig txTo nIn stack scriptPubKey .scripthash vSolutions (script :: sigs1) =
        pushAll (script :: sigs1) ∧
      combineStacks sig txTo nIn (script :: sigs1) scriptPubKey .scripthash vSolutions stack =
        pushAll (script :: sigs1) := by
  constructor
  · cases stack with
    | nil => rfl
    | cons spk stack =>
      have hspk : spk = [] := hempty
      rw [combineStacks, if_pos hspk]
  · rw [combineStacks, if_neg hne, if_pos hempty]

theorem combineSignatures_eq (h : PartlySigned sig env txTo nIn hashed script nRequired keys scriptSig1
    scriptSig2 sigs1 sigs2) :
    combineSignatures sig env txTo nIn (outputScript env hashed script) scriptSig1 scriptSig2 =
      (mergedValues nRequired (merged sig txTo nIn script keys nRequired (allSigs sigs1 sigs2)) ++
        (if hashed then [script] else [])).flatMap pushData := by
  obtain ⟨b,hsolved⟩ := h.solved
  obtain ⟨keyOps,hreads,-⟩ := multisigReads_of_solved hsolved
  rw [combineSignatures]
  dsimp only
  rw [h.left1, h.left2, combineStacks_carried hsolved (script_ne_nil hreads),
    combineMultisig_eq h.one_key, List.flatMap_append]
  cases hashed with
  | false => rfl
  | true => rw [if_pos rfl, if_pos rfl, List.flatMap_singleton]

theorem pushData_length (v : Valtype) : (pushData v).length ≤ v.length+5 := by
  obtain ⟨size,heq,hsize⟩ := pushData_eq v
  rw [heq, List.length_append, hsize]
  split_ifs <;> omega

theorem pushes_length {values : List Valtype} (h : ElementsFit values) :
    (values.flatMap pushData).length ≤ values.length*525 := by
  induction values with
  | nil => exact Nat.zero_le _
  | cons v values ih =>
    obtain ⟨hv,hvalues⟩ := (elementsFit_cons v values).mp h
    have hpush := pushData_length v
    have htail := ih hvalues
    simp only [maxScriptElementSize] at hv
    rw [List.flatMap_cons, List.length_append, List.length_cons]
    omega

/-- The signatures that the combined script is built from are among those of the inputs. -/
theorem mem_of_mem_merged {v : Valtype}
    (h : v ∈ merged sig txTo nIn script keys nRequired (allSigs sigs1 sigs2)) :
    v ∈ sigs1 ++ sigs2 ∧ v ≠ [] := mem_allSigs.mp (firstFits_subset h)

theorem elementsFit_carried (h : ElementsFit (carried hashed script sigs1)) :
    ElementsFit sigs1 ∧ (hashed = true → script.length ≤ maxScriptElementSize) := by
  cases hashed with
  | false => exact ⟨h, fun htrue => by cases htrue⟩
  | true => exact ⟨((elementsFit_cons _ _).mp h).2, fun _ => ((elementsFit_cons _ _).mp h).1⟩

theorem PartlySigned.required_le (h : PartlySigned sig env txTo nIn hashed script nRequired keys
    scriptSig1 scriptSig2 sigs1 sigs2) : nRequired.toNat ≤ 16 := by
  obtain ⟨b,hsolved⟩ := h.solved
  obtain ⟨keyOps,hreads,-⟩ := multisigReads_of_solved hsolved
  exact hreads.m_le.trans hreads.count_le

/-- What is combined can be pushed. -/
theorem PartlySigned.pushable (h : PartlySigned sig env txTo nIn hashed script nRequired keys
    scriptSig1 scriptSig2 sigs1 sigs2) :
    Pushable (mergedValues nRequired (merged sig txTo nIn script keys nRequired
      (allSigs sigs1 sigs2)) ++ (if hashed then [script] else [])) := by
  -- what the inputs leave fits, as each value was pushed by a script
  have hfits1 := elementsFit_stackLeft (sig.evalEnv env) combineContext h.pushOnly1
  have hfits2 := elementsFit_stackLeft (sig.evalEnv env) combineContext h.pushOnly2
  rw [h.left1] at hfits1
  rw [h.left2] at hfits2
  obtain ⟨hsigs1,hscript⟩ := elementsFit_carried hfits1
  obtain ⟨hsigs2,-⟩ := elementsFit_carried hfits2
  have hfits : ElementsFit (mergedValues nRequired (merged sig txTo nIn script keys nRequired
      (allSigs sigs1 sigs2)) ++ (if hashed then [script] else [])) := by
    intro v hv
    rcases List.mem_append.mp hv with hv | hv
    · rcases mem_mergedValues hv with rfl | hmerged
      · exact Nat.zero_le _
      · exact (List.mem_append.mp (mem_of_mem_merged hmerged).1).elim (hsigs1 v) (hsigs2 v)
    · split_ifs at hv with hcase
      · rw [List.mem_singleton.mp hv]
        exact hscript hcase
      · cases hv
  -- a dummy, at most sixteen signatures and the script are eighteen values
  have hrequired := h.required_le
  have hcount : (mergedValues nRequired (merged sig txTo nIn script keys nRequired
      (allSigs sigs1 sigs2)) ++ (if hashed then [script] else [])).length ≤ 18 := by
    rw [List.length_append, mergedValues_length (merged_length_le _)]
    split_ifs
    · rw [List.length_singleton]
      omega
    · rw [List.length_nil]
      omega
  -- eighteen values of 520 bytes each are below the 10000 bytes of a script
  have hsize := pushes_length hfits
  exact ⟨hfits, hcount.trans (by decide), by omega⟩

/-- The combined input is one of the same kind, with the signatures that were taken over. -/
theorem PartlySigned.combined (h : PartlySigned sig env txTo nIn hashed script nRequired keys
    scriptSig1 scriptSig2 sigs1 sigs2) {combined : CScript} (hcombined : combined =
      combineSignatures sig env txTo nIn (outputScript env hashed script) scriptSig1 scriptSig2)
    {left : List Valtype} (hleft : left = (mergedValues nRequired
      (merged sig txTo nIn script keys nRequired (allSigs sigs1 sigs2))).reverse) :
    PartlySigned sig env txTo nIn hashed script nRequired keys combined combined left left := by
  have hpushable := h.pushable
  rw [combineSignatures_eq h] at hcombined
  have hstack : stackLeft (sig.evalEnv env) combineContext combined = carried hashed script left := by
    rw [hcombined, hpushable.stackLeft_eq (sig.evalEnv env) combineContext, hleft, List.reverse_append]
    cases hashed with
    | false => rfl
    | true => rfl
  -- what the combined input leaves is the dummy, placeholders and signatures of the two
  have hmem : ∀ v ∈ left ++ left, v ≠ [] → v ∈ sigs1 ++ sigs2 := by
    intro v hv hne
    rw [hleft, List.mem_append, or_self, List.mem_reverse] at hv
    exact (mem_of_mem_merged ((mem_mergedValues hv).resolve_left hne)).1
  have honly : isPushOnly combined = true := hcombined ▸ hpushable.isPushOnly
  refine ⟨h.solved, h.distinct, honly, honly, hstack, hstack, ?_, ?_⟩
  -- a placeholder signs for no key, so the inputs' own signatures are all that is left to look at
  · intro v hv k hk k' hk' hsigns hsigns'
    have hne : v ≠ [] := by
      rintro rfl
      rw [signs_nil] at hsigns
      cases hsigns
    exact h.one_key v (hmem v hv hne) k hk k' hk' hsigns hsigns'
  · exact fun v hv hne => h.apart v (hmem v hv hne) hne

/-- Combining a combined input with itself gives it again. -/
theorem combineSignatures_self (h : PartlySigned sig env txTo nIn hashed script nRequired keys
    scriptSig1 scriptSig2 sigs1 sigs2) {combined : CScript} (hcombined : combined =
      combineSignatures sig env txTo nIn (outputScript env hashed script) scriptSig1 scriptSig2) :
    combineSignatures sig env txTo nIn (outputScript env hashed script) combined combined = combined := by
  have hone : FitsOne (signs sig txTo nIn script) keys (allSigs sigs1 sigs2) :=
    h.one_key.subset fun v hv => (mem_allSigs.mp hv).1
  -- every key finds the signature it had, as each signature fits one key
  have hagain : merged sig txTo nIn script keys nRequired (allSigs
      (mergedValues nRequired (merged sig txTo nIn script keys nRequired
        (allSigs sigs1 sigs2))).reverse
      (mergedValues nRequired (merged sig txTo nIn script keys nRequired
        (allSigs sigs1 sigs2))).reverse) =
      merged sig txTo nIn script keys nRequired (allSigs sigs1 sigs2) := by
    apply firstFits_again h.distinct hone
    intro v
    rw [mem_allSigs, List.mem_append, or_self, List.mem_reverse]
    constructor
    · rintro ⟨hv,hne⟩
      exact (mem_mergedValues hv).resolve_left hne
    · intro hv
      refine ⟨?_, (mem_of_mem_merged hv).2⟩
      exact List.mem_cons_of_mem _ (List.mem_append_left _ hv)
  have hself := h.combined hcombined rfl
  rw [combineSignatures_eq hself, hagain, ← combineSignatures_eq h, ← hcombined]

theorem combineSignatures_comm (h : PartlySigned sig env txTo nIn hashed script nRequired keys
    scriptSig1 scriptSig2 sigs1 sigs2) :
    combineSignatures sig env txTo nIn (outputScript env hashed script) scriptSig2 scriptSig1 =
      combineSignatures sig env txTo nIn (outputScript env hashed script) scriptSig1 scriptSig2 := by
  have hswap : sigs2 ++ sigs1 ⊆ sigs1 ++ sigs2 := fun _ hmem =>
    List.mem_append.mpr (List.mem_append.mp hmem).symm
  have h' : PartlySigned sig env txTo nIn hashed script nRequired keys scriptSig2 scriptSig1 sigs2
      sigs1 :=
    ⟨h.solved, h.distinct, h.pushOnly2, h.pushOnly1, h.left2, h.left1, h.one_key.subset hswap,
      fun vchSig hmem => h.apart vchSig (hswap hmem)⟩
  rw [combineSignatures_eq h, combineSignatures_eq h', allSigs_comm]

end Result

section Verify
variable {sig : SigEnv} {env : EvalEnv} {ctx : EvalContext} {script : CScript} {rest : List Valtype}
  {s : ℕ}

/-- The turn of an opcode that works on the stack alone. -/
theorem evalStep_stackOp {st : EvalState} {opcode : ℕ} {next : CScript} {stack : List Valtype}
    (op : StackOp) (hop : getOp st.pc = some (opcode,[],next)) (hexec : st.fExec = true)
    (hdecode : decodeOp opcode = some (.stackOp op)) (hcounted : op16 < opcode)
    (henabled : opcode ∉ disabledOpcodes) (hops : st.nOpCount < 201)
    (heval : evalStackOp env st.stack op = pure stack)
    (hroom : stack.length+st.altstack.length ≤ 1000) :
    evalStep env ctx st =
      pure { st with pc := next, stack := stack, nOpCount := st.nOpCount+1 } := by
  have hnopush : ¬opcode ≤ opPushData4 := Nat.not_le.mpr (lt_trans (by decide) hcounted)
  have hexec' : ({ st with pc := next, nOpCount := st.nOpCount+1 } : EvalState).fExec = true := hexec
  have hlimit : ¬(opcode > op16 ∧ st.nOpCount+1 > 201) := fun hover => absurd hover.2 (by omega)
  have hsize : ¬(([] : Valtype).length > maxScriptElementSize) := by decide
  simp only [evalStep, hop]
  rw [if_pos hcounted]
  simp only [returnFalseIf, if_neg hsize, if_neg hlimit, if_neg henabled, pure_bind, executeOpcode,
    hexec', hnopush, and_false, if_false, true_or, if_true, hdecode, evalOp, heval,
    if_neg (Nat.not_lt.mpr hroom)]

/-- The script that has the hash leaves a true value in its place. -/
theorem wp_evalScript_payToScriptHash (hroom : rest.length ≤ 900) :
    wp (evalScript env ctx (script :: rest) (payToScriptHash env script))
      (fun r _ => r = some (vchTrue :: rest)) (fun _ _ => False) s := by
  have hlen := hash160_length env script
  have hbytes := payToScriptHash_eq env script
  have hsize : (payToScriptHash env script).length = 20+3 := by
    rw [hbytes, List.length_cons, List.length_cons, List.length_append, hlen]
    rfl
  generalize hcode : payToScriptHash env script = code at hsize
  -- the hash, its push and the comparison
  have hhash : evalStep env ctx ⟨code,code,[],script :: rest,[],0⟩ =
      pure ⟨pushData (evalHash env script .hash160) ++ [UInt8.ofNat opEqual],code,[],
        evalHash env script .hash160 :: rest,[],1⟩ := by
    have hop : getOp code = some (opHash160,[],
        pushData (evalHash env script .hash160) ++ [UInt8.ofNat opEqual]) := by
      rw [← hcode]
      exact getOp_opcode (n := opHash160) (Or.inr (by decide)) _
    refine evalStep_stackOp (.hash .hash160) hop rfl (by decide) (by decide) (by decide)
      (show 0 < 201 by decide) rfl ?_
    simp only [List.length_cons, List.length_nil]
    omega
  generalize evalHash env script .hash160 = hash at hlen hhash
  have hpush : evalStep env ctx ⟨pushData hash ++ [UInt8.ofNat opEqual],code,[],hash :: rest,[],1⟩ =
      pure ⟨[UInt8.ofNat opEqual],code,[],hash :: hash :: rest,[],1⟩ := by
    obtain ⟨hispush,hvalue⟩ := isPush_pushClass (v := hash) (by rw [hlen]; decide)
    have hop : getOp (pushData hash ++ [UInt8.ofNat opEqual]) =
        some (pushClass hash.length,hash,[UInt8.ofNat opEqual]) := by
      rw [getOp_pushData (by omega), if_neg (by rw [hlen]; decide)]
    have hfit : (hash :: rest).length+([] : List Valtype).length < 1000 := by
      simp only [List.length_cons, List.length_nil]
      omega
    rw [evalStep_eq_push env ctx (pushClass hash.length,hash) hop hispush rfl hfit, hvalue]
  have hequal : evalStep env ctx ⟨[UInt8.ofNat opEqual],code,[],hash :: hash :: rest,[],1⟩ =
      pure ⟨[],code,[],vchTrue :: rest,[],2⟩ := by
    have hop : getOp [UInt8.ofNat opEqual] = some (opEqual,[],[]) :=
      getOp_opcode (n := opEqual) (Or.inr (by decide)) _
    refine evalStep_stackOp (.equal false) hop rfl (by decide) (by decide) (by decide)
      (show 1 < 201 by decide) ?_ ?_
    · simp [evalStackOp, returnFalseIf, verifyTop, vchBool]
    · simp only [List.length_cons, List.length_nil]
      omega
  have hcodeNe : code ≠ [] := List.ne_nil_of_length_pos (by omega)
  have hpushNe : pushData hash ++ [UInt8.ofNat opEqual] ≠ [] :=
    List.append_ne_nil_of_right_ne_nil _ (List.cons_ne_nil _ _)
  have hloop : evalLoop env ctx (20+3) (.init (script :: rest) code) =
      pure ⟨[],code,[],vchTrue :: rest,[],2⟩ := by
    rw [EvalState.init, evalLoop, if_neg hcodeNe, hhash, pure_bind, evalLoop, if_neg hpushNe, hpush,
      pure_bind, evalLoop, if_neg (List.cons_ne_nil _ _), hequal, pure_bind, evalLoop_nil rfl]
  rw [wp_evalScript, evalBody, wp_bind, wp_returnFalseIf]
  refine ⟨fun hlong => absurd hlong (by omega), fun _ => ?_⟩
  rw [hsize, hloop, pure_bind, wp_bind, wp_returnFalseIf]
  refine ⟨fun hopen => absurd rfl hopen, fun _ => ?_⟩
  rw [wp_pure]

theorem castToBool_vchBool (fValue : Bool) : castToBool (vchBool fValue) = fValue := by
  cases fValue <;> rfl

/-- `VerifyScript` of an input that pushes signatures and, where the output has a hash, the script. -/
theorem wp_verifyScript_pushes (env : EvalEnv) (ctx : EvalContext) (s : ℕ) {hashed : Bool} {m : ℕ}
    {keyOps : List (ℕ × Valtype)} {values sigs : List Valtype} {dummy : Valtype}
    (hreads : MultisigReads script m keyOps) (hbare : isPayToScriptHash script = false)
    (hpushable : Pushable (values ++ (if hashed then [script] else [])))
    (hvalues : values.reverse = sigs ++ [dummy]) (hsigs : sigs.length = m)
    (hflags : hashed = true → ctx.flags.p2sh = true) :
    wp (verifyScript env ctx ((values ++ (if hashed then [script] else [])).flatMap pushData)
        (outputScript env hashed script))
      (fun r _ => r = greedyMatch (pairValid env ctx (sigs.foldl dropSignature script)) sigs
        (keyOps.map Prod.snd).reverse) (fun _ _ => False) s := by
  have hlen : values.reverse.length = m+1 := by rw [hvalues, List.length_append, hsigs]; rfl
  have hle := hreads.m_le
  have hcount := hreads.count_le
  rw [verifyScript, wp_bind]
  refine wp_mono (hpushable.wp_evalScript env ctx) ?_ fun _ _ hfail => hfail.elim
  rintro r s' ⟨rfl,-⟩
  -- the input only pushes, so the second script starts on the pushed values
  cases hashed with
  | false =>
    simp only [Bool.false_eq_true, if_false, List.append_nil, hvalues, outputScript]
    rw [wp_bind]
    refine wp_mono (wp_evalScript_multisig hreads hsigs (Nat.zero_le _)) ?_ fun _ _ hfail => hfail.elim
    rintro r s'' rfl
    simp only [castToBool_vchBool, hbare, Bool.and_false, Bool.false_eq_true, if_false]
    rw [wp_ite]
    split_ifs with hfalse
    · rw [wp_pure, hfalse]
    · rw [wp_pure]
      exact (Bool.not_eq_false _ ▸ hfalse).symm
  | true =>
    -- the hash is compared first, then the script on top runs on the values below it
    have honly := hpushable.isPushOnly
    simp only [if_true, List.reverse_append, List.reverse_singleton, List.singleton_append,
      outputScript] at honly ⊢
    rw [wp_bind]
    refine wp_mono (wp_evalScript_payToScriptHash (by omega)) ?_ fun _ _ hfail => hfail.elim
    rintro r s'' rfl
    have htrue : castToBool vchTrue = true := by decide
    simp only [htrue, hflags, isPayToScriptHash_payToScriptHash, honly, Bool.and_self, if_true,
      Bool.true_eq_false, if_false]
    rw [verifyPayToScriptHash, wp_bind, hvalues]
    refine wp_mono (wp_evalScript_multisig hreads hsigs (Nat.zero_le _)) ?_ fun _ _ hfail => hfail.elim
    rintro r s'' rfl
    rw [wp_pure, List.headD_cons, castToBool_vchBool]

end Verify

section Complete
variable {sig : SigEnv} {env : EvalEnv} {txTo : CTransaction} {nIn : ℕ} {hashed : Bool}
  {script scriptSig1 scriptSig2 : CScript} {nRequired : UInt8} {keys sigs1 sigs2 : List Valtype}
  {flags : ScriptFlags}

/-- `VerifyScript` of an input. -/
def verifies (sig : SigEnv) (env : EvalEnv) (txTo : CTransaction) (nIn : ℕ) (flags : ScriptFlags)
    (scriptSig scriptPubKey : CScript) : Bool :=
  ((verifyScript (sig.evalEnv env) ⟨txTo, nIn, flags, 0⟩ scriptSig
    scriptPubKey).run.run 0).1.toOption.getD false

/-- The keys that some signature is valid for. -/
def signedKeys (sig : SigEnv) (txTo : CTransaction) (nIn : ℕ) (script : CScript)
    (keys sigs : List Valtype) : List Valtype :=
  keys.filter fun vchPubKey => sigs.any fun vchSig => signs sig txTo nIn script vchSig vchPubKey

/-- With strict encodings the valid signatures and their keys are canonical. -/
def EncodingsFit (sig : SigEnv) (txTo : CTransaction) (nIn : ℕ) (script : CScript)
    (keys sigs : List Valtype) (flags : ScriptFlags) : Prop :=
  flags.strictEnc = true → ∀ vchSig ∈ sigs, ∀ vchPubKey ∈ keys,
    signs sig txTo nIn script vchSig vchPubKey = true →
      isCanonicalSignature vchSig = true ∧ isCanonicalPubKey vchPubKey = true

theorem pairValid_eq (code : CScript) (vchSig vchPubKey : Valtype) :
    pairValid (sig.evalEnv env) ⟨txTo, nIn, flags, 0⟩ code vchSig vchPubKey =
      ((!flags.strictEnc || (isCanonicalSignature vchSig && isCanonicalPubKey vchPubKey)) &&
        signs sig txTo nIn code vchSig vchPubKey) := rfl

/-- The placeholders and the order of the two lists aside, a matching is found when enough signatures
were taken over. -/
theorem greedyMatch_merged_iff
    (hapart : ∀ vchSig ∈ sigs1 ++ sigs2, vchSig ≠ [] → dropSignature script vchSig = script)
    (hencodings : EncodingsFit sig txTo nIn script keys (sigs1 ++ sigs2) flags)
    {taken sigs : List Valtype}
    (htaken : taken = merged sig txTo nIn script keys nRequired (allSigs sigs1 sigs2))
    (hsigs : sigs = (taken ++ List.replicate (nRequired.toNat-taken.length) []).reverse) :
    greedyMatch (pairValid (sig.evalEnv env) ⟨txTo, nIn, flags, 0⟩ (sigs.foldl dropSignature script))
      sigs keys.reverse = true ↔ taken.length = nRequired.toNat := by
  have hle : taken.length ≤ nRequired.toNat := htaken ▸ merged_length_le _
  rw [greedyMatch_iff]
  constructor
  · -- a placeholder is valid for no key
    intro hmatch
    by_contra hne
    have hnil : [] ∈ sigs := by
      rw [hsigs, List.mem_reverse]
      exact List.mem_append_right _ (List.mem_replicate.mpr ⟨by omega,rfl⟩)
    obtain ⟨vchPubKey,-,hvalid⟩ := exists_partner hmatch hnil
    rw [pairValid_eq, signs_nil, Bool.and_false] at hvalid
    cases hvalid
  · intro hlen
    have hmem : ∀ vchSig ∈ taken, vchSig ∈ sigs1 ++ sigs2 ∧ vchSig ≠ [] := fun vchSig hin =>
      mem_of_mem_merged (htaken ▸ hin)
    -- with no placeholder the signatures left are the ones taken, the last key first
    have hall : sigs = taken.reverse := by
      rw [hsigs, hlen, Nat.sub_self, List.replicate_zero, List.append_nil]
    have hcode : ∀ dropped : List Valtype, (∀ v ∈ dropped, v ∈ taken) →
        dropped.foldl dropSignature script = script := by
      intro dropped hsub
      induction dropped with
      | nil => rfl
      | cons v dropped ih =>
        obtain ⟨hin,hne⟩ := hmem v (hsub v List.mem_cons_self)
        rw [List.foldl_cons, hapart v hin hne]
        exact ih fun v' hv' => hsub v' (List.mem_cons_of_mem _ hv')
    have hmatch : List.SublistForall₂ (fun vchSig vchPubKey =>
        signs sig txTo nIn script vchSig vchPubKey = true) taken keys := htaken ▸ firstFits_matching
    rw [hall, hcode _ fun v hv => List.mem_reverse.mp hv]
    -- `CHECKMULTISIG` goes through signatures and keys from the last to the first
    apply sublistForall₂_reverse
    apply sublistForall₂_imp_mem hmatch
    intro vchSig hin vchPubKey hkey hsigns
    rw [pairValid_eq, hsigns, Bool.and_true]
    cases hstrict : flags.strictEnc with
    | false => rfl
    | true =>
      obtain ⟨hsig,hpubkey⟩ := hencodings hstrict vchSig (hmem vchSig hin).1 vchPubKey hkey hsigns
      rw [hsig, hpubkey]
      rfl

/-- As many signatures are taken over as are asked for when as many keys have one. -/
theorem merged_length_iff :
    (merged sig txTo nIn script keys nRequired (allSigs sigs1 sigs2)).length = nRequired.toNat ↔
      nRequired.toNat ≤ (signedKeys sig txTo nIn script keys (sigs1 ++ sigs2)).length := by
  have hsame : (keys.filter fun vchPubKey => (allSigs sigs1 sigs2).any fun vchSig =>
      signs sig txTo nIn script vchSig vchPubKey) =
      signedKeys sig txTo nIn script keys (sigs1 ++ sigs2) := by
    apply List.filter_congr
    intro vchPubKey _
    rw [Bool.eq_iff_iff, List.any_eq_true, List.any_eq_true]
    constructor
    · rintro ⟨vchSig,hmem,hsigns⟩
      exact ⟨vchSig, (mem_allSigs.mp hmem).1, hsigns⟩
    · rintro ⟨vchSig,hmem,hsigns⟩
      -- a placeholder signs for no key, so leaving the empty ones out loses none
      refine ⟨vchSig, mem_allSigs.mpr ⟨hmem,?_⟩, hsigns⟩
      rintro rfl
      rw [signs_nil] at hsigns
      cases hsigns
  rw [merged, firstFits_length_iff, hsame]

theorem verifies_combined_iff (h : PartlySigned sig env txTo nIn hashed script nRequired keys
    scriptSig1 scriptSig2 sigs1 sigs2) (hp2sh : hashed = true → flags.p2sh = true)
    (hencodings : EncodingsFit sig txTo nIn script keys (sigs1 ++ sigs2) flags) :
    verifies sig env txTo nIn flags (combineSignatures sig env txTo nIn (outputScript env hashed script)
        scriptSig1 scriptSig2) (outputScript env hashed script) = true ↔
      nRequired.toNat ≤ (signedKeys sig txTo nIn script keys (sigs1 ++ sigs2)).length := by
  obtain ⟨b,hsolved⟩ := h.solved
  obtain ⟨keyOps,hreads,rfl⟩ := multisigReads_of_solved hsolved
  -- a multisig template is not a hash template: the solver looks for the hash first
  have hbare : isPayToScriptHash script = false := by
    by_contra hhash
    rw [Bool.not_eq_false] at hhash
    rw [solver, if_pos hhash] at hsolved
    cases hsolved
  generalize htaken : merged sig txTo nIn script (keyOps.map Prod.snd) nRequired (allSigs sigs1 sigs2) =
    taken
  have hle : taken.length ≤ nRequired.toNat := htaken ▸ merged_length_le _
  have hpushable := h.pushable
  rw [htaken] at hpushable
  have hvalues : (mergedValues nRequired taken).reverse =
      (taken ++ List.replicate (nRequired.toNat-taken.length) []).reverse ++ [[]] := List.reverse_cons
  have hcount : (taken ++ List.replicate (nRequired.toNat-taken.length) []).reverse.length =
      nRequired.toNat := by
    rw [List.length_reverse, List.length_append, List.length_replicate]
    omega
  have hrun := wp_verifyScript_pushes (sig.evalEnv env) ⟨txTo, nIn, flags, 0⟩ 0 hreads hbare hpushable
    hvalues hcount hp2sh
  obtain ⟨r,calls,hresult,rfl⟩ := run_of_wp hrun
  rw [combineSignatures_eq h, htaken, verifies]
  change (StateT.run (verifyScript (sig.evalEnv env) _ _ (outputScript (sig.evalEnv env) hashed
    script)).run 0).1.toOption.getD false = true ↔ _
  rw [hresult, ← merged_length_iff, htaken]
  exact greedyMatch_merged_iff h.apart hencodings htaken.symm rfl

/-- The order of two partly signed inputs does not matter, combining the result with itself gives it
again, and it passes when enough keys have a valid signature in one of the two. An input that leaves
nothing for an output with a hash, or an empty top, is passed over for the other as it stands. -/
theorem combineSignatures_complete (h : PartlySigned sig env txTo nIn hashed script nRequired keys
    scriptSig1 scriptSig2 sigs1 sigs2) :
    let scriptPubKey := outputScript env hashed script
    let combine := combineSignatures sig env txTo nIn scriptPubKey
    let combined := combine scriptSig1 scriptSig2
    combine scriptSig2 scriptSig1 = combined ∧ combine combined combined = combined ∧
    (∀ flags : ScriptFlags, (hashed = true → flags.p2sh = true) →
      EncodingsFit sig txTo nIn script keys (sigs1 ++ sigs2) flags →
      (verifies sig env txTo nIn flags combined scriptPubKey = true ↔
        nRequired.toNat ≤ (signedKeys sig txTo nIn script keys (sigs1 ++ sigs2)).length)) ∧
    (hashed = true → ∀ scriptSig : CScript,
      (stackLeft (sig.evalEnv env) combineContext scriptSig).headD [] = [] →
      combine scriptSig scriptSig1 = pushAll (carried hashed script sigs1) ∧
        combine scriptSig1 scriptSig = pushAll (carried hashed script sigs1)) := by
  refine ⟨combineSignatures_comm h, combineSignatures_self h rfl,
    fun flags hp2sh hencodings => verifies_combined_iff h hp2sh hencodings, ?_⟩
  -- an output with a hash: an input with an empty top is passed over
  rintro rfl scriptSig hempty
  obtain ⟨b,hsolved⟩ := h.solved
  obtain ⟨keyOps,hreads,-⟩ := multisigReads_of_solved hsolved
  obtain ⟨vSolutions,hhash⟩ := solver_payToScriptHash env script
  have hpassed := combineStacks_empty (script_ne_nil hreads) hempty sig txTo nIn
    (payToScriptHash env script) vSolutions sigs1
  simp only [combineSignatures, outputScript, if_true, hhash, h.left1, carried]
  exact hpassed

end Complete

section Example

/-- A signature is valid for the keys that begin with its first byte. -/
def firstByteSig : SigEnv :=
  ⟨fun _ _ => 0, fun _ => true, fun vchPubKey _ vchSig => vchSig.headD 0 == vchPubKey.headD 0⟩

def sampleKey (b : UInt8) : Valtype := List.replicate 33 b

/-- Two of two keys. -/
def twoKeysScript : CScript := 0x52 :: (pushData (sampleKey 2) ++ (pushData (sampleKey 3) ++ [0x52,0xae]))

/-- An input that pushes these signatures, and the script behind them. -/
def signedInput (sigs : List Valtype) : CScript := sigs.flatMap pushData ++ pushData twoKeysScript

def noTx : CTransaction := ⟨1, [], [], 0⟩

theorem partlySigned_sample : PartlySigned firstByteSig zeroEnv noTx 0 true twoKeysScript 2
    [sampleKey 2, sampleKey 3] (signedInput [[3,1]]) (signedInput [[],[2,1]]) [[3,1]] [[2,1],[]] := by
  refine ⟨⟨2, by decide +kernel⟩, by decide, by decide +kernel, by decide +kernel, by decide +kernel,
    by decide +kernel, ?_, by decide +kernel⟩
  rw [FitsOne]
  decide +kernel

/-- Two inputs with one signature each make one that passes. -/
theorem combineSignatures_complete_sample :
    verifies firstByteSig zeroEnv noTx 0 ⟨true,false,false⟩
      (combineSignatures firstByteSig zeroEnv noTx 0 (payToScriptHash zeroEnv twoKeysScript)
        (signedInput [[3,1]]) (signedInput [[],[2,1]])) (payToScriptHash zeroEnv twoKeysScript) = true := by
  have h := (combineSignatures_complete partlySigned_sample).2.2.1 ⟨true,false,false⟩ (fun _ => rfl)
    fun hstrict => by cases hstrict
  exact h.mpr (by decide +kernel)

/-- An input without signatures and one with the signatures of both keys, not in the order of the keys,
give one that fails. With nothing signed the order of the inputs shows and an input is changed by
combining it with itself. Without `SCRIPT_VERIFY_P2SH` an input without signatures passes, and with
`SCRIPT_VERIFY_STRICTENC` one with valid signatures fails. -/
theorem combined_input_fails :
    let scriptPubKey := payToScriptHash zeroEnv twoKeysScript
    let combine := combineSignatures firstByteSig zeroEnv noTx 0
    let signed := signedInput [[3,1],[2,1]]
    ((solver twoKeysScript).1 = true ∧ isPushOnly signed = true ∧
      signedKeys firstByteSig noTx 0 twoKeysScript [sampleKey 2, sampleKey 3] [[3,1],[2,1]] =
        [sampleKey 2, sampleKey 3] ∧
      ∀ vchSig ∈ [[3,1],[2,1]], dropSignature twoKeysScript vchSig = twoKeysScript ∧
        (signedKeys firstByteSig noTx 0 twoKeysScript [sampleKey 2, sampleKey 3] [vchSig]).length = 1) ∧
    verifies firstByteSig zeroEnv noTx 0 ⟨true,false,false⟩ (combine scriptPubKey [] signed)
      scriptPubKey = false ∧
    combine scriptPubKey [] op0 ≠ combine scriptPubKey op0 [] ∧
    combine twoKeysScript [] [] ≠ [] ∧
    verifies firstByteSig zeroEnv noTx 0 ⟨false,false,false⟩
      (combine scriptPubKey (signedInput []) (signedInput [])) scriptPubKey = true ∧
    verifies firstByteSig zeroEnv noTx 0 ⟨true,true,false⟩ (combine scriptPubKey signed signed)
      scriptPubKey = false := by
  decide +kernel

end Example

end Candypool.Script
