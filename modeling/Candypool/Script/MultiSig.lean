import Candypool.Lib.OrderMatching
import Candypool.Script.SigCache

/-! `OP_CHECKMULTISIG` finds a matching of the signatures with the keys when there is one, and takes the
counts, the keys, the signatures and one element more off the stack. The check of a signature against a
key is left open. -/
namespace Candypool.Script
open Candypool.Prime Candypool.Core Candypool.Lib

/-- The element stands for the number: `CastToBigNum(vch).getint()`. -/
def IsCount (vch : Valtype) (n : ℕ) : Prop := vch.length ≤ 4 ∧ bnGetint (setvch vch) = n

theorem IsCount.castToBigNum_eq {vch : Valtype} {n : ℕ} (h : IsCount vch n) :
    castToBigNum vch = pure (setvch vch) := by
  rw [castToBigNum, if_neg (Nat.not_lt.mpr h.1), setvch_bnGetvch]

section Loop

/-- The check gives the answer of `valid` for the script the signature signs, and costs a key no more
than `cost`. -/
def ChecksPairs (check : Valtype → Valtype → CScript → EvalM Bool)
    (valid : CScript → Valtype → Valtype → Bool) (cost : Valtype → ℕ) : Prop :=
  ∀ vchSig vchPubKey scriptCode s, wp (check vchSig vchPubKey scriptCode)
    (fun fOk s' => fOk = valid scriptCode vchSig vchPubKey ∧ s ≤ s' ∧ s' ≤ s+cost vchPubKey)
    (fun _ _ => False) s

/-- The encoding checks and `CheckSig`, for one signature and one key. -/
def pairValid (env : EvalEnv) (ctx : EvalContext) (scriptCode : CScript) (vchSig vchPubKey : Valtype) :
    Bool :=
  (!ctx.flags.strictEnc || (isCanonicalSignature vchSig && isCanonicalPubKey vchPubKey)) &&
    env.checkSig vchSig vchPubKey scriptCode ctx.txTo ctx.nIn ctx.nHashType ctx.flags

/-- The interpreter's own check, counted. -/
theorem checkSigCounted_checksPairs (env : EvalEnv) (ctx : EvalContext) :
    ChecksPairs (checkSigCounted env ctx) (pairValid env ctx) (fun _ => 1) := by
  intro vchSig vchPubKey scriptCode s
  rw [checkSigCounted, wp_ite, pairValid]
  split_ifs with hencoding
  · rw [hencoding, Bool.true_and, wp_bind, wp_modify, wp_pure]
    exact ⟨rfl, Nat.le_succ s, le_rfl⟩
  · rw [Bool.not_eq_true] at hencoding
    rw [hencoding, Bool.false_and, wp_pure]
    exact ⟨rfl, le_rfl, Nat.le_succ s⟩

theorem evalCheckMultiSigBy_eq (env : EvalEnv) (ctx : EvalContext) (fVerify : Bool) (st : EvalState) :
    evalCheckMultiSigBy (checkSigCounted env ctx) fVerify st = evalCheckMultiSig env ctx fVerify st :=
  @evalOpBy_eq env ctx true st (.checkMultiSig fVerify)

variable {check : Valtype → Valtype → CScript → EvalM Bool}
  {valid : CScript → Valtype → Valtype → Bool} {cost : Valtype → ℕ} {s : ℕ} {stack : List Valtype}
  {scriptCode : CScript}

theorem stacktop_at {i : ℕ} {vch : Valtype} {rest : List Valtype}
    (h : vch :: rest <+: stack.drop i) : stacktop stack (i+1) = pure vch := by
  have hget : (stack.drop i)[0]? = some vch := by
    obtain ⟨tail,htail⟩ := h
    rw [← htail]
    rfl
  rw [List.getElem?_drop, Nat.add_zero] at hget
  rw [stacktop, hget]

theorem prefix_tail {i : ℕ} {vch : Valtype} {rest : List Valtype} (h : vch :: rest <+: stack.drop i) :
    rest <+: stack.drop (i+1) := by
  obtain ⟨tail,htail⟩ := h
  refine ⟨tail, ?_⟩
  rw [← List.drop_drop, ← htail]
  rfl

theorem dropSignatures_eq {sigs : List Valtype} {isig : ℕ} (h : sigs <+: stack.drop isig) :
    dropSignatures stack (isig+1) sigs.length scriptCode =
      pure (sigs.foldl dropSignature scriptCode) := by
  induction sigs generalizing isig scriptCode with
  | nil => rfl
  | cons vchSig sigs ih =>
    rw [List.length_cons, dropSignatures, stacktop_at h, pure_bind, ih (prefix_tail h)]
    rfl

/-- The loop is greedy matching, and each key is checked once at the most. -/
theorem wp_multiSigLoop_greedy (hcheck : ChecksPairs check valid cost) {post : Bool → ℕ → Prop}
    {err : EvalError → ℕ → Prop} {sigs keys : List Valtype} {isig ikey : ℕ}
    (hsig : sigs <+: stack.drop isig) (hkey : keys <+: stack.drop ikey)
    (hcount : sigs.length ≤ keys.length)
    (hpost : ∀ s', s ≤ s' → s' ≤ s+(keys.map cost).sum →
      post (greedyMatch (valid scriptCode) sigs keys) s') :
    wp (multiSigLoopBy check stack scriptCode (isig+1) (ikey+1) sigs.length keys.length)
      post err s := by
  induction keys generalizing isig ikey sigs s with
  | nil =>
    obtain rfl : sigs = [] := List.eq_nil_of_length_eq_zero (Nat.le_zero.mp hcount)
    rw [List.length_nil, multiSigLoopBy, wp_pure]
    exact hpost s le_rfl (Nat.le_add_right s _)
  | cons key keys ih =>
    cases sigs with
    | nil =>
      rw [List.length_nil, multiSigLoopBy, wp_pure]
      exact hpost s le_rfl (Nat.le_add_right s _)
    | cons sig sigs =>
      simp only [List.length_cons, List.map_cons, List.sum_cons] at hcount hpost ⊢
      rw [multiSigLoopBy, stacktop_at hsig, stacktop_at hkey, pure_bind, pure_bind,
        wp_bind]
      apply wp_mono (hcheck sig key scriptCode s) ?_ fun e s' h => h.elim
      rintro fOk s' ⟨rfl,hle,hcost⟩
      rw [greedyMatch] at hpost
      -- a signature that fits a key is done with, one that does not stays for the next key
      by_cases hvalid : valid scriptCode sig key = true
      · simp only [hvalid, if_true] at hpost ⊢
        rw [wp_ite, if_neg (by omega)]
        apply ih (prefix_tail hsig) (prefix_tail hkey) (by omega)
        intro s'' hle' hcost'
        exact hpost s'' (by omega) (by omega)
      · rw [Bool.not_eq_true] at hvalid
        simp only [hvalid, Bool.false_eq_true, if_false] at hpost ⊢
        rw [wp_ite]
        split_ifs with hmore
        · -- more signatures than keys are left
          rw [wp_pure]
          have hfail : greedyMatch (valid scriptCode) (sig :: sigs) keys = false :=
            greedyMatch_of_length_lt (by rw [List.length_cons]; omega)
          rw [hfail] at hpost
          exact hpost s' hle (by omega)
        · have hcount' : (sig :: sigs).length ≤ keys.length := by
            rw [List.length_cons]
            omega
          have hnext := ih (s := s') hsig (prefix_tail hkey) hcount'
            fun s'' hle' hcost' => hpost s'' (by omega) (by omega)
          rwa [List.length_cons] at hnext

end Loop

section Opcode

/-- A vector of fewer than `2^31` elements has its size as an `int`. -/
theorem castInt_eq {n : ℕ} (h : n < 2^31) : castInt n = n := by
  apply Int.bmod_eq_of_le_mul_two
  · omega
  · omega

/-- The stack as the opcode finds it, the top first. -/
structure MultiSigStack (stack : List Valtype) (vchKeys : Valtype) (keys : List Valtype)
    (vchSigs : Valtype) (sigs : List Valtype) (dummy : Valtype) (rest : List Valtype) : Prop where
  stack_eq : stack = vchKeys :: (keys ++ vchSigs :: (sigs ++ dummy :: rest))
  keys_count : IsCount vchKeys keys.length
  keys_le : keys.length ≤ 20
  sigs_count : IsCount vchSigs sigs.length
  sigs_le : sigs.length ≤ keys.length
  size : stack.length < 2^31

/-- What the signatures sign: the script from the last code separator on, without them. -/
def signedCode (st : EvalState) (sigs : List Valtype) : CScript :=
  sigs.foldl dropSignature st.pbegincodehash

variable {check : Valtype → Valtype → CScript → EvalM Bool}
  {valid : CScript → Valtype → Valtype → Bool} {cost : Valtype → ℕ} {s : ℕ} {st : EvalState}
  {vchKeys vchSigs dummy : Valtype} {keys sigs rest : List Valtype}

/-- The opcode once it knows its counts. -/
theorem wp_afterCounts (hcheck : ChecksPairs check valid cost) {post : EvalState → ℕ → Prop}
    {err : EvalError → ℕ → Prop} (fVerify : Bool) (hkeys : keys <+: st.stack.drop 1)
    (hsigs : sigs <+: st.stack.drop (2+keys.length)) (hle : sigs.length ≤ keys.length)
    (hlen : 2+keys.length+1+sigs.length ≤ st.stack.length)
    (hpost : ∀ fSuccess s', fSuccess = greedyMatch (valid (signedCode st sigs)) sigs keys →
      s ≤ s' → s' ≤ s+(keys.map cost).sum →
      let rest := st.stack.drop (2+keys.length+1+sigs.length)
      (fVerify = false → post { st with
        stack := vchBool fSuccess :: rest, nOpCount := st.nOpCount+keys.length } s') ∧
      (fVerify = true → fSuccess = false → err .returnFalse s') ∧
      (fVerify = true → fSuccess = true → post { st with
        stack := rest, nOpCount := st.nOpCount+keys.length } s')) :
    wp (do
      let scriptCode ← dropSignatures st.stack (2+keys.length+1) sigs.length st.pbegincodehash
      let fSuccess ← multiSigLoopBy check st.stack scriptCode (2+keys.length+1) 2 sigs.length
        keys.length
      let stack ← popstackTimes (2+keys.length+1+sigs.length) st.stack
      let stack ← verifyTop fVerify fSuccess (vchBool fSuccess :: stack)
      return { st with stack := stack, nOpCount := st.nOpCount+keys.length }) post err s := by
  rw [dropSignatures_eq hsigs, pure_bind, wp_bind]
  apply wp_multiSigLoop_greedy hcheck hsigs hkeys hle
  -- the loop decides as the greedy matching does; only the pops and the final check are left
  intro s' hs hcost
  have hfinal := hpost _ s' rfl hs hcost
  rw [wp_bind, popstackTimes_eq hlen, wp_pure, wp_bind, wp_verifyTop]
  simp only [wp_pure]
  exact hfinal

theorem take_length_prefix {l : List Valtype} {n i : ℕ} (h : i+n ≤ l.length) :
    ∃ part, part <+: l.drop i ∧ part.length = n := by
  refine ⟨(l.drop i).take n, List.take_prefix _ _, ?_⟩
  rw [List.length_take, List.length_drop]
  omega

/-- Whatever the stack is, every access is inside it. -/
theorem evalCheckMultiSig_inRange (hcheck : ChecksPairs check valid cost) (fVerify : Bool) :
    wp (evalCheckMultiSigBy check fVerify st) (fun _ _ => True) (fun e _ => e.Handled) s := by
  have hsize := castInt_le st.stack.length
  rw [evalCheckMultiSigBy]
  dsimp only
  rw [wp_bind, wp_returnFalseIf]
  -- each early return is `return false`, and each read is inside the stack by the check before it
  refine ⟨fun _ => trivial, fun hlen => ?_⟩
  rw [wp_bind]
  apply wp_stacktop (by omega)
  rw [wp_bind, wp_castToBigNum]
  refine ⟨id, fun _ => ?_⟩
  generalize bnGetint (setvch st.stack[0]) = nKeys
  rw [wp_bind, wp_returnFalseIf]
  refine ⟨fun _ => trivial, fun hkeys => ?_⟩
  rw [wp_bind, wp_returnFalseIf]
  refine ⟨fun _ => trivial, fun _ => ?_⟩
  rw [wp_bind, wp_returnFalseIf]
  refine ⟨fun _ => trivial, fun hkeysThere => ?_⟩
  rw [wp_bind, show 2+nKeys.toNat = 1+nKeys.toNat+1 by omega]
  apply wp_stacktop (by omega)
  rw [wp_bind, wp_castToBigNum]
  refine ⟨id, fun _ => ?_⟩
  generalize bnGetint (setvch st.stack[1+nKeys.toNat]) = nSigs
  rw [wp_bind, wp_returnFalseIf]
  refine ⟨fun _ => trivial, fun hsigs => ?_⟩
  rw [wp_bind, wp_returnFalseIf]
  refine ⟨fun _ => trivial, fun hsigsThere => ?_⟩
  -- the keys and signatures are the cuts of the stack below the two counts
  obtain ⟨keys,hkeysAt,hkeysLen⟩ := take_length_prefix (l := st.stack) (n := nKeys.toNat) (i := 1)
    (by omega)
  obtain ⟨sigs,hsigsAt,hsigsLen⟩ := take_length_prefix (l := st.stack) (n := nSigs.toNat)
    (i := 2+nKeys.toNat) (by omega)
  rw [show 1+nKeys.toNat+1 = 2+nKeys.toNat by omega, ← hkeysLen, ← hsigsLen]
  rw [← hkeysLen] at hsigsAt
  apply wp_afterCounts hcheck fVerify hkeysAt hsigsAt (by omega) (by omega)
  exact fun fSuccess s' _ _ _ => ⟨fun _ => trivial, fun _ _ => trivial, fun _ _ => trivial⟩

/-- The opcode on a stack that holds what it needs. -/
theorem wp_evalCheckMultiSig (hcheck : ChecksPairs check valid cost) {post : EvalState → ℕ → Prop}
    {err : EvalError → ℕ → Prop} (fVerify : Bool)
    (h : MultiSigStack st.stack vchKeys keys vchSigs sigs dummy rest)
    (hops : st.nOpCount+keys.length ≤ 201)
    (hpost : ∀ fSuccess s', fSuccess = greedyMatch (valid (signedCode st sigs)) sigs keys →
      s ≤ s' → s' ≤ s+(keys.map cost).sum →
      (fVerify = false → post { st with
        stack := vchBool fSuccess :: rest, nOpCount := st.nOpCount+keys.length } s') ∧
      (fVerify = true → fSuccess = false → err .returnFalse s') ∧
      (fVerify = true → fSuccess = true → post { st with
        stack := rest, nOpCount := st.nOpCount+keys.length } s')) :
    wp (evalCheckMultiSigBy check fVerify st) post err s := by
  obtain ⟨hstack,hkeys,hkeysLe,hsigs,hsigsLe,hsize⟩ := h
  have hlen : st.stack.length = keys.length+sigs.length+3+rest.length := by
    rw [hstack]
    simp only [List.length_cons, List.length_append]
    omega
  -- where the three parts of the stack begin
  have htop : vchKeys :: [] <+: st.stack.drop 0 := by
    rw [hstack]
    exact ⟨_, rfl⟩
  have hkeysAt : keys <+: st.stack.drop 1 := by
    rw [hstack]
    exact ⟨_, rfl⟩
  have hcountAt : vchSigs :: sigs <+: st.stack.drop (1+keys.length) := by
    rw [← List.drop_drop, hstack, List.drop_succ_cons, List.drop_zero, List.drop_left]
    exact ⟨dummy :: rest, rfl⟩
  have hsigsAt : sigs <+: st.stack.drop (2+keys.length) := by
    rw [show 2+keys.length = 1+keys.length+1 by omega]
    exact prefix_tail hcountAt
  have hrest : st.stack.drop (2+keys.length+1+sigs.length) = rest := by
    have heq : st.stack = (vchKeys :: (keys ++ vchSigs :: (sigs ++ [dummy]))) ++ rest := by
      rw [hstack]
      simp
    have hdrop : 2+keys.length+1+sigs.length =
        (vchKeys :: (keys ++ vchSigs :: (sigs ++ [dummy]))).length := by
      simp only [List.length_cons, List.length_append, List.length_nil]
      omega
    rw [hdrop, heq, List.drop_left]
  rw [evalCheckMultiSigBy]
  dsimp only
  rw [castInt_eq hsize, wp_bind, wp_returnFalseIf]
  refine ⟨fun hshort => by omega, fun _ => ?_⟩
  rw [stacktop_at htop, pure_bind, hkeys.castToBigNum_eq, pure_bind, hkeys.2, wp_bind,
    wp_returnFalseIf]
  refine ⟨fun hrange => by omega, fun _ => ?_⟩
  rw [Int.toNat_natCast, wp_bind, wp_returnFalseIf]
  refine ⟨fun hlimit => absurd hops (Nat.not_le.mpr hlimit), fun _ => ?_⟩
  rw [wp_bind, wp_returnFalseIf]
  refine ⟨fun hshort => by omega, fun _ => ?_⟩
  have hread : stacktop st.stack (2+keys.length) = pure vchSigs := by
    rw [show 2+keys.length = 1+keys.length+1 by omega]
    exact stacktop_at hcountAt
  rw [hread, pure_bind, hsigs.castToBigNum_eq, pure_bind, hsigs.2, wp_bind, wp_returnFalseIf]
  refine ⟨fun hrange => by omega, fun _ => ?_⟩
  rw [Int.toNat_natCast, wp_bind, wp_returnFalseIf]
  refine ⟨fun hshort => by omega, fun _ => ?_⟩
  apply wp_afterCounts hcheck fVerify hkeysAt hsigsAt hsigsLe (by omega)
  rw [hrest]
  exact hpost

/-- Fewer elements than the counts ask for. -/
structure MultiSigShort (stack : List Valtype) (vchKeys : Valtype) (tail : List Valtype)
    (nKeysCount : ℕ) : Prop where
  stack_eq : stack = vchKeys :: tail
  keys_count : IsCount vchKeys nKeysCount
  keys_le : nKeysCount ≤ 20
  short : tail.length < nKeysCount+1 ∨ ∃ vchSigs nSigsCount, tail[nKeysCount]? = some vchSigs ∧
    IsCount vchSigs nSigsCount ∧ nSigsCount ≤ nKeysCount ∧ tail.length < nKeysCount+nSigsCount+2

theorem wp_evalCheckMultiSig_short {post : EvalState → ℕ → Prop} {err : EvalError → ℕ → Prop}
    (fVerify : Bool) {tail : List Valtype} {nKeysCount : ℕ}
    (h : st.stack = [] ∨ MultiSigShort st.stack vchKeys tail nKeysCount) (herr : err .returnFalse s) :
    wp (evalCheckMultiSigBy check fVerify st) post err s := by
  have hsize := castInt_le st.stack.length
  rw [evalCheckMultiSigBy]
  dsimp only
  rw [wp_bind, wp_returnFalseIf]
  refine ⟨fun _ => herr, fun hlen => ?_⟩
  -- on the empty stack the first check answers; else the count of keys is read
  rcases h with hnil | ⟨hstack,hkeys,hkeysLe,hshort⟩
  · rw [hnil] at hlen
    exact absurd (by decide) hlen
  have htop : vchKeys :: [] <+: st.stack.drop 0 := by
    rw [hstack]
    exact ⟨_, rfl⟩
  have hlength : st.stack.length = tail.length+1 := by rw [hstack, List.length_cons]
  rw [stacktop_at htop, pure_bind, hkeys.castToBigNum_eq, pure_bind, hkeys.2, wp_bind,
    wp_returnFalseIf]
  refine ⟨fun _ => herr, fun _ => ?_⟩
  rw [wp_bind, wp_returnFalseIf]
  refine ⟨fun _ => herr, fun _ => ?_⟩
  rw [Int.toNat_natCast, wp_bind, wp_returnFalseIf]
  refine ⟨fun _ => herr, fun hkeysThere => ?_⟩
  -- either the keys do not fit, or the count of signatures is read and they do not
  rcases hshort with hshort | ⟨vchSigs,nSigsCount,hget,hsigs,hsigsLe,hshort⟩
  · omega
  have hread : stacktop st.stack (2+nKeysCount) = pure vchSigs := by
    rw [show 2+nKeysCount = nKeysCount+1+1 by omega, hstack, stacktop, List.getElem?_cons_succ, hget]
  rw [hread, pure_bind, hsigs.castToBigNum_eq, pure_bind, hsigs.2, wp_bind, wp_returnFalseIf]
  refine ⟨fun _ => herr, fun _ => ?_⟩
  rw [Int.toNat_natCast, wp_bind, wp_returnFalseIf]
  exact ⟨fun _ => herr, fun hthere => by omega⟩

theorem wp_evalCheckMultiSig_limit {post : EvalState → ℕ → Prop} {err : EvalError → ℕ → Prop}
    (fVerify : Bool) (h : MultiSigStack st.stack vchKeys keys vchSigs sigs dummy rest)
    (hops : 201 < st.nOpCount+keys.length) (herr : err .returnFalse s) :
    wp (evalCheckMultiSigBy check fVerify st) post err s := by
  have htop : vchKeys :: [] <+: st.stack.drop 0 := by
    rw [h.stack_eq]
    exact ⟨_, rfl⟩
  have hkeys := h.keys_count
  rw [evalCheckMultiSigBy]
  dsimp only
  rw [wp_bind, wp_returnFalseIf]
  refine ⟨fun _ => herr, fun _ => ?_⟩
  rw [stacktop_at htop, pure_bind, hkeys.castToBigNum_eq, pure_bind, hkeys.2, wp_bind,
    wp_returnFalseIf]
  refine ⟨fun _ => herr, fun _ => ?_⟩
  rw [Int.toNat_natCast, wp_bind, wp_returnFalseIf]
  exact ⟨fun _ => herr, fun hlimit => absurd hops (by omega)⟩

/-- A run that ends in the handler before anything was checked. -/
theorem run_of_returnFalse {fVerify : Bool}
    (h : wp (evalCheckMultiSigBy check fVerify st) (fun _ _ => False)
      (fun e s' => e = .returnFalse ∧ s' = s) s) :
    (evalCheckMultiSigBy check fVerify st).run.run s = (.error .returnFalse, s) := by
  obtain ⟨e,s',hrun,rfl,rfl⟩ := fails_of_wp h
  exact hrun

/-- The run on a stack that holds what the opcode needs. -/
theorem run_evalCheckMultiSig (hcheck : ChecksPairs check valid cost) (fVerify : Bool)
    (h : MultiSigStack st.stack vchKeys keys vchSigs sigs dummy rest)
    (hops : st.nOpCount+keys.length ≤ 201) {fSuccess : Bool}
    (hmatch : fSuccess = greedyMatch (valid (signedCode st sigs)) sigs keys) :
    ∃ s', s ≤ s' ∧ s' ≤ s+(keys.map cost).sum ∧
      (evalCheckMultiSigBy check fVerify st).run.run s =
        (if fVerify && !fSuccess then .error .returnFalse else .ok { st with
          stack := if fVerify then rest else vchBool fSuccess :: rest,
          nOpCount := st.nOpCount+keys.length }, s') := by
  -- the two ends of `wp` name the answer, so the run can be read off from it
  have hresult : wp (evalCheckMultiSigBy check fVerify st)
      (fun st' s' => (fVerify && !fSuccess) = false ∧ s ≤ s' ∧ s' ≤ s+(keys.map cost).sum ∧
        st' = { st with
          stack := if fVerify then rest else vchBool fSuccess :: rest,
          nOpCount := st.nOpCount+keys.length })
      (fun e s' => (fVerify && !fSuccess) = true ∧ s ≤ s' ∧ s' ≤ s+(keys.map cost).sum ∧
        e = .returnFalse) s := by
    apply wp_evalCheckMultiSig hcheck fVerify h hops
    rintro fSuccess' s' hsame hs hcost
    rw [← hmatch] at hsame
    subst hsame
    refine ⟨?_, ?_, ?_⟩
    · rintro rfl
      exact ⟨rfl, hs, hcost, rfl⟩
    · rintro rfl rfl
      exact ⟨rfl, hs, hcost, rfl⟩
    · rintro rfl rfl
      exact ⟨rfl, hs, hcost, rfl⟩
  rcases hrun : (evalCheckMultiSigBy check fVerify st).run.run s with ⟨r,s'⟩
  cases r with
  | ok st' =>
    obtain ⟨hend,hs,hcost,rfl⟩ := post_of_wp hresult hrun
    refine ⟨s', hs, hcost, ?_⟩
    rw [hend]
    rfl
  | error e =>
    obtain ⟨hend,hs,hcost,rfl⟩ := err_of_wp hresult hrun
    refine ⟨s', hs, hcost, ?_⟩
    rw [hend]
    rfl

/-- For every check of signatures against keys: no access is outside the stack; on a stack with all the
elements asked for `fSuccess` says whether the signatures can be matched with keys in their order, each
key is checked once at the most, and one result replaces the keys, the signatures and three elements
more; with fewer elements, or too many operations, nothing is checked and the script fails. The
interpreter's opcode is the one with its own check. -/
theorem checkMultiSig_finds_matching (check : Valtype → Valtype → CScript → EvalM Bool)
    (valid : CScript → Valtype → Valtype → Bool) (cost : Valtype → ℕ)
    (hcheck : ChecksPairs check valid cost) (st : EvalState) (s : ℕ) :
    (∀ fVerify e s', (evalCheckMultiSigBy check fVerify st).run.run s = (.error e,s') →
      e ≠ .outOfRange) ∧
    (∀ vchKeys keys vchSigs sigs dummy rest,
      MultiSigStack st.stack vchKeys keys vchSigs sigs dummy rest →
      if st.nOpCount+keys.length ≤ 201 then
        ∃ fSuccess, (fSuccess = true ↔ OrderMatching
            (fun vchSig vchPubKey => valid (signedCode st sigs) vchSig vchPubKey = true) sigs keys) ∧
          ∀ fVerify, ∃ s', s ≤ s' ∧ s' ≤ s+(keys.map cost).sum ∧
            (evalCheckMultiSigBy check fVerify st).run.run s =
              (if fVerify && !fSuccess then .error .returnFalse else .ok { st with
                stack := if fVerify then rest else vchBool fSuccess :: rest,
                nOpCount := st.nOpCount+keys.length }, s')
      else ∀ fVerify, (evalCheckMultiSigBy check fVerify st).run.run s = (.error .returnFalse, s)) ∧
    (∀ vchKeys tail nKeysCount, st.stack = [] ∨ MultiSigShort st.stack vchKeys tail nKeysCount →
      ∀ fVerify, (evalCheckMultiSigBy check fVerify st).run.run s = (.error .returnFalse, s)) ∧
    ∀ env ctx fVerify, ChecksPairs (checkSigCounted env ctx) (pairValid env ctx) (fun _ => 1) ∧
      evalCheckMultiSigBy (checkSigCounted env ctx) fVerify st = evalCheckMultiSig env ctx fVerify st := by
  refine ⟨?_, ?_, ?_, ?_⟩
  · rintro fVerify e s' hrun rfl
    have he := err_of_wp (evalCheckMultiSig_inRange hcheck fVerify) hrun
    exact not_handled_outOfRange he
  · intro vchKeys keys vchSigs sigs dummy rest h
    split_ifs with hops
    · have hmatch : greedyMatch (valid (signedCode st sigs)) sigs keys = true ↔ OrderMatching
          (fun vchSig vchPubKey => valid (signedCode st sigs) vchSig vchPubKey = true) sigs keys :=
        (greedyMatch_iff _ sigs keys).trans orderMatching_iff.symm
      exact ⟨_, hmatch, fun fVerify => run_evalCheckMultiSig hcheck fVerify h hops rfl⟩
    · intro fVerify
      exact run_of_returnFalse (wp_evalCheckMultiSig_limit fVerify h (by omega) ⟨rfl, rfl⟩)
  · intro vchKeys tail nKeysCount h fVerify
    exact run_of_returnFalse (wp_evalCheckMultiSig_short fVerify h ⟨rfl, rfl⟩)
  · exact fun env ctx fVerify => ⟨checkSigCounted_checksPairs env ctx, evalCheckMultiSigBy_eq env ctx _ st⟩

end Opcode

section Example

/-- A signature is valid for the key of the same bytes. -/
def sameBytes (vchSig vchPubKey : Valtype) (_ : CScript) : EvalM Bool := do
  modify (·+1)
  return vchSig == vchPubKey

theorem sameBytes_checksPairs : ChecksPairs sameBytes (fun _ vchSig vchPubKey => vchSig == vchPubKey)
    (fun _ => 1) := by
  intro vchSig vchPubKey scriptCode s
  rw [sameBytes, wp_bind, wp_modify, wp_pure]
  exact ⟨rfl, Nat.le_succ s, le_rfl⟩

/-- Two signatures for the first and the last of three keys, over one element more. -/
def matchedState : EvalState :=
  { EvalState.init [[3], [7], [8], [9], [2], [7], [9], []] [0xae] with nOpCount := 1 }

theorem checkMultiSig_finds_matching_two :
    ∃ fSuccess, (fSuccess = true ↔ OrderMatching
        (fun vchSig vchPubKey : Valtype => (vchSig == vchPubKey) = true) [[7], [9]] [[7], [8], [9]]) ∧
      ∃ s', s' ≤ 3 ∧ (evalCheckMultiSigBy sameBytes false matchedState).run.run 0 =
        (.ok { matchedState with stack := [vchBool fSuccess], nOpCount := 4 }, s') := by
  have h := (checkMultiSig_finds_matching sameBytes _ _ sameBytes_checksPairs matchedState 0).2.1
    [3] [[7], [8], [9]] [2] [[7], [9]] [] []
    ⟨rfl, ⟨by decide, by decide +kernel⟩, by decide, ⟨by decide, by decide +kernel⟩, by decide, by decide⟩
  rw [if_pos (by decide)] at h
  obtain ⟨fSuccess,hmatch,hrun⟩ := h
  obtain ⟨s',-,hcost,hrun⟩ := hrun false
  exact ⟨fSuccess, hmatch, s', hcost, hrun⟩

end Example

end Candypool.Script
