import Candypool.Lib.WordArray
import Candypool.Prime.PrimeTable
import Candypool.Prime.Target

/-! The miner's sieve: for every multiplier below the sieve size, which members of the chains with
origin `mpzHash * mpzFixedMultiplier * multiplier` have a small prime factor. `w` is the width of
`unsigned long`, the type of a sieve word. -/
namespace Candypool.Prime
open Candypool.Lib

def uintMax : ℕ := 2^32-1

def ulongMax (w : ℕ) : ℕ := 2^w-1

section Invert

/-- The loop of `int_invert`: three division steps a turn, each with its own exit. -/
def intInvertLoop (rem0 rem1 : ℕ) (aux0 aux1 : ℤ) : ℤ :=
  if rem1 ≤ 1 then aux1
  else
    let rem2 := rem0%rem1
    let aux2 := -(rem0/rem1 : ℕ)*aux1+aux0
    if rem2 ≤ 1 then aux2
    else
      let rem0' := rem1%rem2
      let aux0' := -(rem1/rem2 : ℕ)*aux2+aux1
      if rem0' ≤ 1 then aux0'
      else intInvertLoop rem0' (rem2%rem0') aux0' (-(rem2/rem0' : ℕ)*aux0'+aux2)
termination_by rem1
decreasing_by
  have h2 : rem2 < rem1 := Nat.mod_lt rem0 (by omega)
  have h0 : rem0' < rem2 := Nat.mod_lt rem1 (by omega)
  have h1 : rem2%rem0' < rem0' := Nat.mod_lt rem2 (by omega)
  exact h1.trans (h0.trans h2)

/-- `(inverse + nPrime) % nPrime`, where the sum is an `unsigned int`. -/
def intInvert (a nPrime : ℕ) : ℕ :=
  ((intInvertLoop nPrime (a%nPrime) 0 1+nPrime)%2^32).toNat%nPrime

end Invert

/-- What a sieve is made with. The prime table is the one that was generated for its settings. -/
structure SieveParams where
  settings : SieveSettings
  nBits : BitVec 32
  mpzHash : ℕ
  mpzFixedMultiplier : ℕ
  vPrimes : Array ℕ
  vPrimes_eq : vPrimes = generatePrimeTable settings.nSieveSize

namespace SieveParams
variable (P : SieveParams)

def nSieveSize : ℕ := P.settings.nSieveSize

def nSieveExtensions : ℕ := P.settings.nSieveExtensions

def nCandidatesWords (w : ℕ) : ℕ := (P.nSieveSize+w-1)/w

def nChainLength : ℕ := (targetGetLength P.nBits).toNat

def nSieveLayers : ℕ := P.nChainLength+P.nSieveExtensions

def nPrimes : ℕ := P.vPrimes.size*P.settings.nSievePercentage/100

end SieveParams

section Multipliers

/-- What ends a weave early: a read past the end of the prime table, or the error return. -/
inductive WeaveFault where
  | pastTable
  | invertFailed (nPrimeSeq : ℕ)
deriving DecidableEq

/-- The places where the weave looks for a new block. -/
inductive WeaveCheck where
  | prime (nPrimeSeq : ℕ)
  | round (j : ℕ)
  | layer (j nLayerSeq : ℕ)

/-- Combines primes from `nCombinedEndSeq` on to a divisor of 32 bits. -/
def combinePrimes (vPrimes : Array ℕ) (nPrimeCombined nCombinedEndSeq : ℕ) : Option (ℕ × ℕ) :=
  if nCombinedEndSeq < vPrimes.size then
    let nPrime := vPrimes.getD nCombinedEndSeq 0
    if nPrimeCombined < uintMax/nPrime then
      combinePrimes vPrimes (nPrimeCombined*nPrime%2^32) (nCombinedEndSeq+1)
    else some (nPrimeCombined,nCombinedEndSeq)
  else none
termination_by vPrimes.size-nCombinedEndSeq

/-- The fixed factor modulo a 32-bit divisor. A multiplier that fits is reduced on its own and the
product is formed in 64 bits, otherwise the product is a big number. -/
def fixedFactorMod (w mpzHash mpzFixedMultiplier nPrimeCombined : ℕ) : ℕ :=
  if mpzFixedMultiplier < ulongMax w then
    mpzHash%nPrimeCombined*(mpzFixedMultiplier%nPrimeCombined)%2^64%nPrimeCombined
  else mpzHash*mpzFixedMultiplier%nPrimeCombined

structure MultiplierState where
  nCombinedEndSeq : ℕ
  nFixedFactorCombinedMod : ℕ
  vCunningham1Multipliers : Array ℕ
  vCunningham2Multipliers : Array ℕ

/-- One turn of the loop over the layers of a prime, whose slots start at `base`. The inverse is
halved in `bits`-bit arithmetic. -/
def fillLayer (bits nPrime base : ℕ) (st : ℕ × MultiplierState) (nChainSeq : ℕ) :
    ℕ × MultiplierState :=
  let nFixedInverse := st.1
  (nFixedInverse*((nPrime+1)/2)%2^bits%nPrime,
   { st.2 with
     vCunningham1Multipliers :=
       st.2.vCunningham1Multipliers.setIfInBounds (base+nChainSeq) nFixedInverse
     vCunningham2Multipliers :=
       st.2.vCunningham2Multipliers.setIfInBounds (base+nChainSeq) (nPrime-nFixedInverse) })

def fillLayers (bits nPrime nPrimeSeq nSieveLayers nFixedInverse : ℕ) (st : MultiplierState) :
    MultiplierState :=
  (rangeLoop never (fillLayer bits nPrime (nPrimeSeq*nSieveLayers)) 0 nSieveLayers
    (nFixedInverse,st)).2

def combineStep (w : ℕ) (P : SieveParams) (st : MultiplierState) (nPrimeSeq : ℕ) :
    Except WeaveFault MultiplierState :=
  if nPrimeSeq ≥ st.nCombinedEndSeq then
    match combinePrimes P.vPrimes 1 st.nCombinedEndSeq with
    | none => .error .pastTable
    | some (nPrimeCombined,nCombinedEndSeq) => .ok
        { st with
          nCombinedEndSeq := nCombinedEndSeq
          nFixedFactorCombinedMod :=
            fixedFactorMod w P.mpzHash P.mpzFixedMultiplier nPrimeCombined }
  else .ok st

def invertStep (P : SieveParams) (st : MultiplierState) (nPrimeSeq : ℕ) :
    Except WeaveFault MultiplierState :=
  let nPrime := P.vPrimes.getD nPrimeSeq 0
  let nFixedFactorMod := st.nFixedFactorCombinedMod%nPrime
  -- Nothing in the sieve is divisible by a prime that divides the fixed factor.
  if nFixedFactorMod = 0 then .ok st
  else
    let nFixedInverse := intInvert nFixedFactorMod nPrime
    if nFixedInverse = 0 then .error (.invertFailed nPrimeSeq)
    else
      let bits := if uintMax/((nPrime+1)/2) ≥ nPrime then 32 else 64
      .ok (fillLayers bits nPrime nPrimeSeq P.nSieveLayers nFixedInverse st)

def weaveMultipliers (w : ℕ) (P : SieveParams) (newBlock : WeaveCheck → Bool) :
    Except WeaveFault MultiplierState :=
  rangeLoop (fun s => newBlock (.prime s))
    (fun st s => st.bind fun st => (combineStep w P st s).bind fun st => invertStep P st s)
    1 P.nPrimes (.ok
      { nCombinedEndSeq := 1
        nFixedFactorCombinedMod := 0
        vCunningham1Multipliers := Array.replicate (P.nPrimes*P.nSieveLayers) uintMax
        vCunningham2Multipliers := Array.replicate (P.nPrimes*P.nSieveLayers) uintMax })

end Multipliers

section Layers
variable {w : ℕ}

/-- The bit set of the current layer for one kind of chain, with the multipliers at which its
primes resume. -/
structure Lane (w : ℕ) where
  vfCompositeLayer : Array (BitVec w)
  vMultipliers : Array ℕ

/-- Sets the bits `v, v + nPrime, …` below `nMaxMultiplier`. The rotating build keeps the bit mask
and rotates it, the other one makes it anew. -/
def strikeMultiples (fRotate : Bool) (nPrime nMaxMultiplier : ℕ) (vfComposites : Array (BitVec w))
    (v : ℕ) : Array (BitVec w) × ℕ :=
  if fRotate then
    let r := strideLoop nPrime nMaxMultiplier
      (fun (st : Array (BitVec w) × BitVec w) u =>
        (orWord st.1 (u/w) st.2, rotateMask st.2 (nPrime%w)))
      (vfComposites,bitMask w v) v
    (r.1.1,r.2)
  else
    strideLoop nPrime nMaxMultiplier (fun vf u => orWord vf (u/w) (bitMask w u)) vfComposites v

/-- The multiplier of a prime stays below `2 * nSieveSize`, so that nothing wraps around; the mark
`UINT_MAX` of a prime without multiples is above every bound and left alone. -/
def processMultiplier (fRotate : Bool) (P : SieveParams) (lane : Lane w)
    (nMinMultiplier nMaxMultiplier nLayerSeq : ℕ) : Lane w :=
  let vfWiped :=
    if nMinMultiplier < nMaxMultiplier then
      wipeWords lane.vfCompositeLayer (nMinMultiplier/w) ((nMaxMultiplier-nMinMultiplier+w-1)/w)
    else lane.vfCompositeLayer
  rangeLoop never (fun lane nPrimeSeq =>
    let nPrime := P.vPrimes.getD nPrimeSeq 0
    let slot := nPrimeSeq*P.nSieveLayers+nLayerSeq
    let r := strikeMultiples fRotate nPrime nMaxMultiplier lane.vfCompositeLayer
      (catchUp nPrime nMinMultiplier (lane.vMultipliers.getD slot 0))
    ⟨r.1,lane.vMultipliers.setIfInBounds slot r.2⟩) 1 P.nPrimes ⟨vfWiped,lane.vMultipliers⟩

/-- The bit sets of the three kinds of chains. -/
structure Composites (w : ℕ) where
  vfCompositeBiTwin : Array (BitVec w)
  vfCompositeCunningham1 : Array (BitVec w)
  vfCompositeCunningham2 : Array (BitVec w)

/-- Adds a layer to the bit sets that start at word `off`. A BiTwin chain has half of its members
of each kind, and one more of the first kind where the length is odd. -/
def applyLayer (P : SieveParams) (off nMinWord nMaxWord nLayerSeq : ℕ)
    (vfCompositeLayerCC1 vfCompositeLayerCC2 : Array (BitVec w)) (c : Composites w) :
    Composites w where
  vfCompositeCunningham1 :=
    orWords c.vfCompositeCunningham1 off nMinWord nMaxWord vfCompositeLayerCC1
  vfCompositeCunningham2 :=
    orWords c.vfCompositeCunningham2 off nMinWord nMaxWord vfCompositeLayerCC2
  vfCompositeBiTwin :=
    if nLayerSeq < P.nChainLength/2 then
      orWords (orWords c.vfCompositeBiTwin off nMinWord nMaxWord vfCompositeLayerCC1)
        off nMinWord nMaxWord vfCompositeLayerCC2
    else if nLayerSeq < (P.nChainLength+1)/2 then
      orWords c.vfCompositeBiTwin off nMinWord nMaxWord vfCompositeLayerCC1
    else c.vfCompositeBiTwin

/-- `vfCandidates = ~(vfCompositeCunningham1 & vfCompositeCunningham2 & vfCompositeBiTwin)` -/
def combineCandidates (off nMinWord nMaxWord : ℕ) (c : Composites w)
    (vfCandidates : Array (BitVec w)) : Array (BitVec w) :=
  mapWords (fun i _ => ~~~(c.vfCompositeCunningham1.getD (off+i) 0#w &&&
      c.vfCompositeCunningham2.getD (off+i) 0#w &&& c.vfCompositeBiTwin.getD (off+i) 0#w))
    off nMinWord nMaxWord vfCandidates

end Layers

section Weave
variable {w : ℕ}

/-- The bit sets of the sieve and, one extension after the other, those of its extensions. -/
structure SieveArrays (w : ℕ) where
  vfCandidates : Array (BitVec w)
  vfComposite : Composites w
  vfExtendedCandidates : Array (BitVec w)
  vfExtendedComposite : Composites w

def Composites.zero (w size : ℕ) : Composites w :=
  ⟨Array.replicate size 0#w,Array.replicate size 0#w,Array.replicate size 0#w⟩

/-- The arrays as the constructor leaves them. -/
def SieveArrays.new (w : ℕ) (P : SieveParams) : SieveArrays w where
  vfCandidates := Array.replicate (P.nCandidatesWords w) 0#w
  vfComposite := .zero w (P.nCandidatesWords w)
  vfExtendedCandidates := Array.replicate (P.nSieveExtensions*P.nCandidatesWords w) 0#w
  vfExtendedComposite := .zero w (P.nSieveExtensions*P.nCandidatesWords w)

structure WeaveState (w : ℕ) where
  cunningham1 : Lane w
  cunningham2 : Lane w
  arrays : SieveArrays w

def nL1CacheElements : ℕ := 224000

namespace SieveParams
variable (P : SieveParams)

def nArrayRounds : ℕ := (P.nSieveSize+nL1CacheElements-1)/nL1CacheElements

/-- Only the upper half of the array is used in extensions. -/
def nExtensionsMinMultiplier : ℕ := P.nSieveSize/2

def nMinMultiplier (j : ℕ) : ℕ := nL1CacheElements*j

def nMaxMultiplier (j : ℕ) : ℕ := min (nL1CacheElements*(j+1)) P.nSieveSize

def nExtMinMultiplier (j : ℕ) : ℕ := max (nMinMultiplier j) P.nExtensionsMinMultiplier

def nMaxWord (w j : ℕ) : ℕ := (P.nMaxMultiplier j+w-1)/w

def nExtMinWord (w j : ℕ) : ℕ := max (nMinMultiplier j/w) (P.nExtensionsMinMultiplier/w)

/-- Where a layer starts in round `j`: the layers past the chain length only serve extensions. -/
def layerMin (j nLayerSeq : ℕ) : ℕ :=
  if nLayerSeq < P.nChainLength then nMinMultiplier j else P.nExtMinMultiplier j

end SieveParams

/-- Applies the layer to the extensions whose window it lies in. -/
def applyExtensions (P : SieveParams) (j nLayerSeq : ℕ)
    (vfCompositeLayerCC1 vfCompositeLayerCC2 : Array (BitVec w)) (c : Composites w) :
    Composites w :=
  rangeLoop never (fun c nExtensionSeq =>
    let nLayerOffset := nExtensionSeq+1
    if nLayerSeq ≥ nLayerOffset ∧ nLayerSeq < P.nChainLength+nLayerOffset then
      applyLayer P (nExtensionSeq*P.nCandidatesWords w) (P.nExtMinWord w j) (P.nMaxWord w j)
        (nLayerSeq-nLayerOffset) vfCompositeLayerCC1 vfCompositeLayerCC2 c
    else c) 0 P.nSieveExtensions c

def weaveLayer (fRotate : Bool) (P : SieveParams) (j : ℕ) (st : WeaveState w) (nLayerSeq : ℕ) :
    WeaveState w :=
  let cc1 := processMultiplier fRotate P st.cunningham1 (P.layerMin j nLayerSeq)
    (P.nMaxMultiplier j) nLayerSeq
  let cc2 := processMultiplier fRotate P st.cunningham2 (P.layerMin j nLayerSeq)
    (P.nMaxMultiplier j) nLayerSeq
  { cunningham1 := cc1
    cunningham2 := cc2
    arrays :=
      { st.arrays with
        vfComposite :=
          if nLayerSeq < P.nChainLength then
            applyLayer P 0 (SieveParams.nMinMultiplier j/w) (P.nMaxWord w j) nLayerSeq
              cc1.vfCompositeLayer cc2.vfCompositeLayer st.arrays.vfComposite
          else st.arrays.vfComposite
        vfExtendedComposite :=
          applyExtensions P j nLayerSeq cc1.vfCompositeLayer cc2.vfCompositeLayer
            st.arrays.vfExtendedComposite } }

def combineExtensions (P : SieveParams) (j : ℕ) (c : Composites w)
    (vfExtendedCandidates : Array (BitVec w)) : Array (BitVec w) :=
  rangeLoop never (fun vf nExtensionSeq =>
    combineCandidates (nExtensionSeq*P.nCandidatesWords w) (P.nExtMinWord w j) (P.nMaxWord w j)
      c vf) 0 P.nSieveExtensions vfExtendedCandidates

def weaveCandidates (P : SieveParams) (j : ℕ) (A : SieveArrays w) : SieveArrays w :=
  { A with
    vfCandidates := combineCandidates 0 (SieveParams.nMinMultiplier j/w) (P.nMaxWord w j)
      A.vfComposite A.vfCandidates
    vfExtendedCandidates :=
      combineExtensions P j A.vfExtendedComposite A.vfExtendedCandidates }

def weaveLayers (fRotate : Bool) (P : SieveParams) (newBlock : WeaveCheck → Bool) (j : ℕ)
    (st : WeaveState w) : WeaveState w :=
  rangeLoop (fun k => newBlock (.layer j k)) (weaveLayer fRotate P j) 0 P.nSieveLayers st

def weaveRound (fRotate : Bool) (P : SieveParams) (newBlock : WeaveCheck → Bool)
    (st : WeaveState w) (j : ℕ) : WeaveState w :=
  let st := weaveLayers fRotate P newBlock j st
  { st with arrays := weaveCandidates P j st.arrays }

/-- The state the rounds start with. The layer bit sets are allocated and not cleared: `uninit1` and
`uninit2` are what they hold. -/
def WeaveState.start (P : SieveParams) (m : MultiplierState) (uninit1 uninit2 : ℕ → BitVec w) :
    WeaveState w where
  cunningham1 :=
    ⟨Array.ofFn fun i : Fin (P.nCandidatesWords w) => uninit1 i,m.vCunningham1Multipliers⟩
  cunningham2 :=
    ⟨Array.ofFn fun i : Fin (P.nCandidatesWords w) => uninit2 i,m.vCunningham2Multipliers⟩
  arrays := .new w P

def weaveRounds (fRotate : Bool) (P : SieveParams) (newBlock : WeaveCheck → Bool)
    (st : WeaveState w) : WeaveState w :=
  rangeLoop (fun j => newBlock (.round j)) (weaveRound fRotate P newBlock) 0 P.nArrayRounds st

/-- One weave of a new sieve. -/
def weave (w : ℕ) (fRotate : Bool) (P : SieveParams) (newBlock : WeaveCheck → Bool)
    (uninit1 uninit2 : ℕ → BitVec w) : Except WeaveFault (SieveArrays w) :=
  (weaveMultipliers w P newBlock).map fun m =>
    (weaveRounds fRotate P newBlock (.start P m uninit1 uninit2)).arrays

end Weave

end Candypool.Prime
