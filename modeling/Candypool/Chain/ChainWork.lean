import Candypool.Chain.AcceptBlock

/-! The work of a block and the work of a chain, which is summed up in 256 bits. -/
namespace Candypool.Chain
open Candypool.Prime Candypool.Core Candypool.Coins

section Quotient
variable {d d' : ℕ}

/-- A quotient that gains by cross multiplication. -/
theorem div_le_div_of_cross {x y x' y' : ℕ} (hy : 0 < y) (hy' : 0 < y') (hcross : x*y' ≤ x'*y) :
    x/y ≤ x'/y' := by
  rw [Nat.le_div_iff_mul_le hy']
  apply Nat.le_of_mul_le_mul_right _ hy
  calc x/y*y'*y = x/y*y*y' := by ring
    _ ≤ x*y' := Nat.mul_le_mul_right _ (Nat.div_mul_le_self x y)
    _ ≤ x'*y := hcross

/-- The work of a difficulty `d` at `extra` primes above the minimum. -/
def workAt (extra d : ℕ) : ℕ := 256*32^extra*(32*d)/(31*2^32+d)

theorem workAt_mono (extra : ℕ) (hle : d ≤ d') : workAt extra d ≤ workAt extra d' := by
  apply div_le_div_of_cross (by omega) (by omega)
  calc 256*32^extra*(32*d)*(31*2^32+d') = 256*32^extra*32*(d*(31*2^32)+d*d') := by ring
    _ ≤ 256*32^extra*32*(d'*(31*2^32)+d*d') :=
        Nat.mul_le_mul_left _ (Nat.add_le_add_right (Nat.mul_le_mul_right _ hle) _)
    _ = 256*32^extra*(32*d')*(31*2^32+d) := by ring

/-- One more prime is worth a factor of 32, which no fraction reaches. -/
theorem workAt_bounds (extra : ℕ) (hlow : 2^32 ≤ d) :
    256*32^extra ≤ workAt extra d ∧ workAt extra d ≤ 256*32^(extra+1) := by
  constructor
  · rw [workAt, Nat.le_div_iff_mul_le (by omega)]
    exact Nat.mul_le_mul_left _ (by omega)
  · apply Nat.div_le_of_le_mul
    calc 256*32^extra*(32*d) = d*(256*32^(extra+1)) := by ring
      _ ≤ (31*2^32+d)*(256*32^(extra+1)) := Nat.mul_le_mul_right _ (Nat.le_add_left _ _)

end Quotient

section Work
variable {params : TargetParams} {nBits nBits' : BitVec 32}

theorem getBlockWork_eq (params : TargetParams) (nBits : BitVec 32) :
    getBlockWork params nBits = workAt (nBits.toNat/2^24-params.nTargetMinLength.toNat)
      (2^56/(2^24-nBits.toNat % 2^24)) := by
  have hdifficulty := targetGetFractionalDifficulty_eq nBits
  rw [getBlockWork, targetGetLength_toNat, hdifficulty]
  rfl

theorem difficulty_low (n : ℕ) : 2^32 ≤ 2^56/(2^24-n % 2^24) := by
  have hlt : n % 2^24 < 2^24 := Nat.mod_lt _ (by norm_num)
  calc 2^32 = 2^56/2^24 := by norm_num
    _ ≤ 2^56/(2^24-n % 2^24) := Nat.div_le_div_left (by omega) (by omega)

/-- The two 64-bit numbers of `GetBlockWork` do not overflow. -/
theorem work_words_lt (nBits : BitVec 32) :
    nWorkTransitionRatio*targetGetFractionalDifficulty nBits < 2^64 ∧
      (nWorkTransitionRatio-1)*nFractionalDifficultyMin+targetGetFractionalDifficulty nBits < 2^64 := by
  have hratio : nWorkTransitionRatio = 32 := rfl
  have hmin : nFractionalDifficultyMin = 2^32 := rfl
  have hle : targetGetFractionalDifficulty nBits ≤ 2^56 := by
    rw [targetGetFractionalDifficulty_eq]
    exact Nat.div_le_self _ _
  rw [hratio, hmin]
  omega

theorem getBlockWork_pos (params : TargetParams) (nBits : BitVec 32) :
    0 < getBlockWork params nBits := by
  have hlow := (workAt_bounds (nBits.toNat/2^24-params.nTargetMinLength.toNat)
    (difficulty_low nBits.toNat)).1
  rw [getBlockWork_eq]
  exact lt_of_lt_of_le (by positivity) hlow

theorem getBlockWork_mono (hmin : params.nTargetMinLength ≤ targetGetLength nBits)
    (hle : nBits ≤ nBits') : getBlockWork params nBits ≤ getBlockWork params nBits' := by
  have hlength := BitVec.le_def.mp hmin
  have hnat := BitVec.le_def.mp hle
  rw [targetGetLength_toNat] at hlength
  have hlow := difficulty_low nBits.toNat
  have hlow' := difficulty_low nBits'.toNat
  rw [getBlockWork_eq, getBlockWork_eq]
  rcases Nat.lt_or_eq_of_le (@Nat.div_le_div_right _ _ (2^24) hnat) with hlt | heq
  · -- the start of the next length is above every fraction of this one
    calc _ ≤ 256*32^(nBits.toNat/2^24-params.nTargetMinLength.toNat+1) := (workAt_bounds _ hlow).2
      _ ≤ 256*32^(nBits'.toNat/2^24-params.nTargetMinLength.toNat) :=
          Nat.mul_le_mul_left _ (Nat.pow_le_pow_right (by norm_num) (by omega))
      _ ≤ _ := (workAt_bounds _ hlow').1
  · rw [heq]
    have hlt' : nBits'.toNat % 2^24 < 2^24 := Nat.mod_lt _ (by norm_num)
    exact workAt_mono _ (Nat.div_le_div_left (by omega) (by omega))

theorem getBlockWork_le (hshort : targetGetLength nBits ≤ 40) : getBlockWork params nBits ≤ 2^213 := by
  have hlength := BitVec.le_def.mp hshort
  rw [targetGetLength_toNat] at hlength
  have hforty : nBits.toNat/2^24 ≤ 40 := hlength
  rw [getBlockWork_eq]
  calc _ ≤ 256*32^(nBits.toNat/2^24-params.nTargetMinLength.toNat+1) :=
        (workAt_bounds _ (difficulty_low nBits.toNat)).2
    _ ≤ 256*32^41 := Nat.mul_le_mul_left _ (Nat.pow_le_pow_right (by norm_num) (by omega))
    _ = 2^213 := by norm_num

end Work

section Chain
variable {W : Type} {cons : Consensus} {sync : WalletSync W} {fuel : ℕ} {s : NodeState W}
  {m m' : BlockPtr → Option CBlockIndex}

/-- The targets on the way from a block up to the first one. -/
inductive ChainBits (m : BlockPtr → Option CBlockIndex) : BlockPtr → List (BitVec 32) → Prop
  | first {p : BlockPtr} {pindex : CBlockIndex} (entry : m p = some pindex)
      (top : pindex.pprev = none) : ChainBits m p [pindex.nBits]
  | next {p q : BlockPtr} {pindex : CBlockIndex} {bits : List (BitVec 32)}
      (entry : m p = some pindex) (parent : pindex.pprev = some q) (rest : ChainBits m q bits) :
      ChainBits m p (pindex.nBits :: bits)

/-- Every entry has its work added to that of its parent. -/
def WorkAdds (cons : Consensus) (m : BlockPtr → Option CBlockIndex) : Prop :=
  ∀ p pindex, m p = some pindex → pindex.nChainWork =
    (pindex.pprev.map (workOf m)).getD 0+BitVec.ofNat 256 (getBlockWork cons.target pindex.nBits)

theorem WorkAdds.same (h : WorkAdds cons m) (hsame : SameTree m m') : WorkAdds cons m' := by
  intro p pindex' hp'
  have hback : SameTree m' m := fun q => (hsame q).symm
  obtain ⟨pindex,hp,hfixed⟩ := hback.entry hp'
  have hwork : pindex.nChainWork = pindex'.nChainWork := (congrArg CBlockIndex.nChainWork hfixed :)
  have hparent : pindex.pprev = pindex'.pprev := (congrArg CBlockIndex.pprev hfixed :)
  have hbits : pindex.nBits = pindex'.nBits := (congrArg CBlockIndex.nBits hfixed :)
  rw [← hwork, ← hparent, ← hbits, hsame.workOf]
  exact h p pindex hp

theorem ChainBits.same (hsame : SameTree m m') {p : BlockPtr} {bits : List (BitVec 32)}
    (h : ChainBits m p bits) : ChainBits m' p bits := by
  induction h with
  | @first p pindex entry top =>
    obtain ⟨pindex',hp',hfixed⟩ := hsame.entry entry
    have hparent : pindex'.pprev = pindex.pprev := (congrArg CBlockIndex.pprev hfixed :)
    have hbits : pindex'.nBits = pindex.nBits := (congrArg CBlockIndex.nBits hfixed :)
    rw [← hbits]
    exact .first hp' (hparent.trans top)
  | @next p q pindex bits entry parent rest ih =>
    obtain ⟨pindex',hp',hfixed⟩ := hsame.entry entry
    have hparent : pindex'.pprev = pindex.pprev := (congrArg CBlockIndex.pprev hfixed :)
    have hbits : pindex'.nBits = pindex.nBits := (congrArg CBlockIndex.nBits hfixed :)
    rw [← hbits]
    exact .next hp' (hparent.trans parent) ih

/-- A new entry changes nothing for those that were there. -/
theorem WorkAdds.insert (h : WorkAdds cons s.mapBlockIndex) {root : BlockPtr}
    (hroot : Rooted root s.mapBlockIndex) {block : CBlock}
    (hnew : s.mapBlockIndex (block.getHash cons.ext) = none)
    (hprev : (s.mapBlockIndex block.hashPrevBlock).isSome = true) :
    WorkAdds cons (insertIndex cons s block).mapBlockIndex := by
  have hold : ∀ q, (s.mapBlockIndex q).isSome = true →
      workOf (insertIndex cons s block).mapBlockIndex q = workOf s.mapBlockIndex q := by
    intro q hq
    rw [workOf, workOf, insertIndex_ne (ne_of_isSome hnew hq)]
  intro p pindex hp
  by_cases hself : p = block.getHash cons.ext
  · rw [hself, insertIndex_self] at hp
    rw [← Option.some.inj hp, (newIndex_of_parent hprev).1, Option.map_some, Option.getD_some,
      hold _ hprev, newIndex]
    obtain ⟨prev,hprev'⟩ := Option.isSome_iff_exists.mp hprev
    dsimp only
    rw [hprev']
    rfl
  · rw [insertIndex_ne hself] at hp
    rw [h p pindex hp]
    cases hparent : pindex.pprev with
    | none => rfl
    | some q =>
      have hq : parentOf s.mapBlockIndex p = some q := by
        rw [parentOf, hp]
        exact hparent
      rw [Option.map_some, Option.map_some, hold q (hroot.parent p q hq)]

theorem ChainBits.insert {block : CBlock} (hnew : s.mapBlockIndex (block.getHash cons.ext) = none)
    {p : BlockPtr} {bits : List (BitVec 32)} (h : ChainBits s.mapBlockIndex p bits) :
    ChainBits (insertIndex cons s block).mapBlockIndex p bits := by
  have hkept : ∀ q pindex, s.mapBlockIndex q = some pindex →
      (insertIndex cons s block).mapBlockIndex q = some pindex := by
    intro q pindex hq
    rw [insertIndex_ne (ne_of_isSome hnew (by rw [hq]; rfl)), hq]
  induction h with
  | first entry top => exact .first (hkept _ _ entry) top
  | next entry parent rest ih => exact .next (hkept _ _ entry) parent ih

/-- What every run keeps: the tree hangs together, the works add up, and every block has a chain. -/
structure Worked (cons : Consensus) (m : BlockPtr → Option CBlockIndex) : Prop where
  rooted : Rooted cons.hashGenesisBlock m
  adds : WorkAdds cons m
  chain : ∀ p, (m p).isSome = true → ∃ bits, ChainBits m p bits

theorem Worked.same (h : Worked cons m) (hsame : SameTree m m') : Worked cons m' := by
  refine ⟨h.rooted.same hsame, h.adds.same hsame, fun p hp => ?_⟩
  rw [hsame.isSome p] at hp
  obtain ⟨bits,hbits⟩ := h.chain p hp
  exact ⟨bits, hbits.same hsame⟩

theorem Worked.insert (h : Worked cons s.mapBlockIndex) {block : CBlock}
    (hnew : s.mapBlockIndex (block.getHash cons.ext) = none)
    (hprev : (s.mapBlockIndex block.hashPrevBlock).isSome = true) :
    Worked cons (insertIndex cons s block).mapBlockIndex := by
  refine ⟨h.rooted.insert hprev, h.adds.insert h.rooted hnew hprev, fun p hp => ?_⟩
  by_cases hself : p = block.getHash cons.ext
  · obtain ⟨bits,hbits⟩ := h.chain _ hprev
    rw [hself]
    exact ⟨_, .next insertIndex_self (newIndex_of_parent hprev).1 (hbits.insert hnew)⟩
  · rw [insertIndex_ne hself] at hp
    obtain ⟨bits,hbits⟩ := h.chain p hp
    exact ⟨bits, hbits.insert hnew⟩

theorem Worked.exec (h : Worked cons s.mapBlockIndex) {op : Op} (hcalled : op.Called s) :
    Worked cons (op.exec cons sync fuel s).2.mapBlockIndex := by
  cases op with
  | addToBlockIndex block io =>
    by_cases hdup : (s.mapBlockIndex (block.getHash cons.ext)).isSome = true
    · rw [Op.exec, addToBlockIndex, if_pos hdup]
      exact h
    · have hnew : s.mapBlockIndex (block.getHash cons.ext) = none := by simpa using hdup
      exact (h.insert hnew hcalled).same (addToBlockIndex_tree io fuel hnew)
  | setBestChain p io => exact h.same (Op.exec_tree (by simp) fuel s)
  | acceptToMemoryPool tx fCheckInputs fLimitFree io => exact h.same (Op.exec_tree (by simp) fuel s)

theorem Worked.loadedGenesis (genesis : CBlock) (wallet : W) :
    Worked cons (Chain.loadedGenesis cons genesis wallet).mapBlockIndex := by
  have honly : ∀ p pindex, (Chain.loadedGenesis cons genesis wallet).mapBlockIndex p = some pindex →
      pindex = genesisIndex cons genesis := by
    intro p pindex hp
    change (if p = cons.hashGenesisBlock then some (genesisIndex cons genesis) else none) = _ at hp
    split_ifs at hp
    exact (Option.some.inj hp).symm
  refine ⟨loadedGenesis_rooted genesis wallet, fun p pindex hp => ?_, fun p hp => ?_⟩
  · rw [honly p pindex hp]
    rfl
  · obtain ⟨pindex,hpindex⟩ := Option.isSome_iff_exists.mp hp
    have htop : pindex.pprev = none := by
      rw [honly p pindex hpindex]
      rfl
    exact ⟨_, .first hpindex htop⟩

/-- The sum without truncation: it stays below 2^256, so adding in 256 bits is exact. -/
theorem ChainBits.work (hadds : WorkAdds cons m) {p : BlockPtr} {bits : List (BitVec 32)}
    (h : ChainBits m p bits) (hshort : ∀ nBits ∈ bits, targetGetLength nBits ≤ 40)
    (hfew : bits.length < 2^31) :
    (workOf m p).toNat = (bits.map (getBlockWork cons.target)).sum ∧
      (bits.map (getBlockWork cons.target)).sum ≤ bits.length*2^213 := by
  induction h with
  | @first p pindex entry top =>
    have hle : getBlockWork cons.target pindex.nBits ≤ 2^213 :=
      getBlockWork_le (hshort _ List.mem_cons_self)
    have hwork := hadds p pindex entry
    have hzero : (0 : Uint256)+BitVec.ofNat 256 (getBlockWork cons.target pindex.nBits) =
        BitVec.ofNat 256 (getBlockWork cons.target pindex.nBits) := BitVec.zero_add _
    rw [top, Option.map_none, Option.getD_none, hzero] at hwork
    rw [workOf, entry, Option.map_some, Option.getD_some, hwork, BitVec.toNat_ofNat,
      List.map_singleton, List.sum_singleton, List.length_singleton]
    exact ⟨Nat.mod_eq_of_lt (by omega), by omega⟩
  | @next p q pindex bits entry parent rest ih =>
    have hle : getBlockWork cons.target pindex.nBits ≤ 2^213 :=
      getBlockWork_le (hshort _ List.mem_cons_self)
    rw [List.length_cons] at hfew
    obtain ⟨hsum,hbound⟩ := ih (fun nBits hmem => hshort nBits (List.mem_cons_of_mem _ hmem)) (by omega)
    have hwork := hadds p pindex entry
    rw [parent, Option.map_some, Option.getD_some] at hwork
    rw [workOf, entry, Option.map_some, Option.getD_some, hwork, BitVec.toNat_add, BitVec.toNat_ofNat,
      hsum, List.map_cons, List.sum_cons, List.length_cons]
    omega

/-- The work of a block is positive and grows with its target, also from one length to the next. In
every state of every run, the work of a chain of less than 2^31 blocks with lengths up to 40 is the
exact sum of its blocks' works, and more than that of its parent. -/
theorem chain_work_orders (cons : Consensus) (sync : WalletSync W) (fuel : ℕ) (genesis : CBlock)
    (wallet : W) :
    (∀ nBits nBits', cons.target.nTargetMinLength ≤ targetGetLength nBits → nBits ≤ nBits' →
      0 < getBlockWork cons.target nBits ∧
        getBlockWork cons.target nBits ≤ getBlockWork cons.target nBits') ∧
    ∀ s, Reaches cons sync fuel (fun _ _ => True) (loadedGenesis cons genesis wallet) s →
      ∀ p, (s.mapBlockIndex p).isSome = true → (∃ bits, ChainBits s.mapBlockIndex p bits) ∧
        ∀ bits, ChainBits s.mapBlockIndex p bits → bits.length < 2^31 →
          (∀ nBits ∈ bits, targetGetLength nBits ≤ 40) →
          (workOf s.mapBlockIndex p).toNat = (bits.map (getBlockWork cons.target)).sum ∧
            ∀ q, parentOf s.mapBlockIndex p = some q →
              workOf s.mapBlockIndex q < workOf s.mapBlockIndex p := by
  constructor
  · intro nBits nBits' hmin hle
    exact ⟨getBlockWork_pos _ _, getBlockWork_mono hmin hle⟩
  intro s hs p hp
  -- every operation keeps the sums of work
  have hworked : Worked cons s.mapBlockIndex := by
    have hstep : ∀ (s : NodeState W) (op : Op), Worked cons s.mapBlockIndex → op.Called s → True →
        Worked cons (op.exec cons sync fuel s).2.mapBlockIndex :=
      fun s op h hcalled _ => h.exec hcalled
    exact hs.invariant (Q := fun s : NodeState W => Worked cons s.mapBlockIndex) (Worked.loadedGenesis genesis wallet)
      hstep
  refine ⟨hworked.chain p hp, fun bits hbits hfew hshort => ?_⟩
  obtain ⟨hsum,-⟩ := hbits.work hworked.adds hshort hfew
  refine ⟨hsum, fun q hq => ?_⟩
  -- the work of the block itself is what makes the sum grow
  rw [BitVec.lt_def, hsum]
  cases hbits with
  | first entry top =>
    rw [parentOf, entry, Option.bind_some, top] at hq
    cases hq
  | next entry parent rest =>
    rw [parentOf, entry, Option.bind_some, parent] at hq
    rw [List.length_cons] at hfew
    obtain ⟨hsum',-⟩ := rest.work hworked.adds
      (fun nBits hmem => hshort nBits (List.mem_cons_of_mem _ hmem)) (by omega)
    rw [← Option.some.inj hq, hsum', List.map_cons, List.sum_cons]
    exact Nat.lt_add_of_pos_left (getBlockWork_pos _ _)

end Chain

/-- The theorem at the first block of a network. -/
theorem chain_work_orders_sample :
    getBlockWork sampleConsensus.target 0x07ffffff ≤ getBlockWork sampleConsensus.target 0x08000000 ∧
      (workOf (loadedGenesis sampleConsensus sampleBlock ()).mapBlockIndex
        sampleConsensus.hashGenesisBlock).toNat = getBlockWork sampleConsensus.target 0x07000000 := by
  have h := chain_work_orders sampleConsensus (fun w _ _ _ => w) 0 sampleBlock ()
  have hentry : (loadedGenesis sampleConsensus sampleBlock ()).mapBlockIndex
      sampleConsensus.hashGenesisBlock = some (genesisIndex sampleConsensus sampleBlock) := by
    simp [loadedGenesis]
  have hshort : ∀ nBits ∈ [(0x07000000 : BitVec 32)], targetGetLength nBits ≤ 40 := by
    intro nBits hmem
    rw [List.mem_singleton.mp hmem]
    decide
  refine ⟨(h.1 _ _ (by decide) (by decide)).2, ?_⟩
  have hchain := (h.2 _ .start _ (by rw [hentry]; rfl)).2 _ (.first hentry rfl)
  exact (hchain (by norm_num) hshort).1

end Candypool.Chain
