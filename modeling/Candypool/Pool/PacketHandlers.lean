import Candypool.Pool.Packet
import Candypool.Pool.CheckWork
import Candypool.Script.ScriptNum

/-! The packet handlers as far as they read: `xptServer_processPacket_authRequest` and
`xptServer_processPacket_submitShareRequest`, with every copy they make into an array. The reader
of a share is the one of the share check. -/
namespace Candypool.Pool
open Candypool.Core

/-- The arrays that the bytes of a packet are copied into. -/
inductive Destination
  | username
  | password
  | merkleRoot
  | prevBlockHash
  | fixedMultiplier
  | chainMultiplier
  deriving DecidableEq, Repr

def Destination.size : Destination → ℕ
  | .username => 128+4
  | .password => 128+4
  | .merkleRoot => 32
  | .prevBlockHash => 32
  | .fixedMultiplier => 201
  | .chainMultiplier => 201

/-- The packet buffer, and the copies made so far with the number of their bytes. -/
structure ReadState where
  cpb : XptPacketbuffer
  copies : List (Destination × ℕ)

/-- A part of a handler; without a result the handler has returned false. -/
def PacketReader (α : Type) : Type := ReadState → Option α × ReadState

namespace PacketReader

instance : Monad PacketReader where
  pure a := fun s => (some a, s)
  bind reader next := fun s => match reader s with
    | (some a, s) => next a s
    | (none, s) => (none, s)

/-- A number; the handlers look at the flag after each call. -/
def readU32 : PacketReader ℕ := fun s =>
  let (v,readError,cpb) := s.cpb.readU32
  if readError then (none, { s with cpb := cpb }) else (some v.toNat, { s with cpb := cpb })

def readU8 : PacketReader ℕ := fun s =>
  let (v,readError,cpb) := s.cpb.readU8
  if readError then (none, { s with cpb := cpb }) else (some v.toNat, { s with cpb := cpb })

/-- `length` bytes into an array, which held zeros. Only its end tells whether they fit. -/
def readData (destination : Destination) (length : ℕ) : PacketReader (List UInt8) := fun s =>
  let (data,readError,cpb) := s.cpb.readData (List.replicate length 0) false
  if readError then (none, { s with cpb := cpb })
  else (some data, ⟨cpb, if length ≥ maxDataSize then s.copies
    else s.copies ++ [(destination,length)]⟩)

def require (condition : Prop) [Decidable condition] : PacketReader Unit := fun s =>
  if condition then (some (), s) else (none, s)

end PacketReader

/-- What a login asks for; the version is not needed. -/
structure AuthRequest where
  username : List UInt8
  password : List UInt8
  payloadNum : ℕ
  deriving DecidableEq, Repr

/-- The fields of a login in the order of the packet. -/
def readAuthRequest : PacketReader AuthRequest := do
  let _version ← PacketReader.readU32
  let usernameLength ← PacketReader.readU8
  PacketReader.require (¬(usernameLength < 1 ∨ usernameLength > 128))
  let username ← PacketReader.readData .username usernameLength
  let passwordLength ← PacketReader.readU8
  PacketReader.require (¬(passwordLength < 1 ∨ passwordLength > 128))
  let password ← PacketReader.readData .password passwordLength
  let payloadNum ← PacketReader.readU32
  PacketReader.require (¬(payloadNum < 1 ∨ payloadNum > 128))
  return ⟨username,password,payloadNum⟩

/-- `xptSubmittedShare_t` as the packet fills it. -/
structure ShareFields where
  merkleRoot : List UInt8
  prevBlockHash : List UInt8
  version : ℕ
  nTime : ℕ
  nonce : ℕ
  nBits : ℕ
  sieveSize : ℕ
  sieveCandidate : ℕ
  fixedMultiplierSize : ℕ
  fixedMultiplier : List UInt8
  chainMultiplierSize : ℕ
  chainMultiplier : List UInt8
  share_id : ℕ

/-- The fields of a share in the order of the packet. -/
def readShareFields : PacketReader ShareFields := do
  let merkleRoot ← PacketReader.readData .merkleRoot 32
  let prevBlockHash ← PacketReader.readData .prevBlockHash 32
  let version ← PacketReader.readU32
  let nTime ← PacketReader.readU32
  let nonce ← PacketReader.readU32
  let nBits ← PacketReader.readU32
  let sieveSize ← PacketReader.readU32
  let sieveCandidate ← PacketReader.readU32
  let fixedMultiplierSize ← PacketReader.readU8
  let fixedMultiplier ← PacketReader.readData .fixedMultiplier fixedMultiplierSize
  let chainMultiplierSize ← PacketReader.readU8
  let chainMultiplier ← PacketReader.readData .chainMultiplier chainMultiplierSize
  let share_id ← PacketReader.readU32
  return ⟨merkleRoot,prevBlockHash,version,nTime,nonce,nBits,sieveSize,sieveCandidate,
    fixedMultiplierSize,fixedMultiplier,chainMultiplierSize,chainMultiplier,share_id⟩

/-- The reading part of `xptServer_processPacket_authRequest`, for a client that is new. -/
def processAuthRequest (client : WorkClient) (cpb : XptPacketbuffer) :
    Option AuthRequest × ReadState :=
  if client.loggedIn then (none, ⟨cpb,[]⟩) else readAuthRequest ⟨cpb.beginReadPacket,[]⟩

/-- A login that the table of workers knows; the client is served at once. -/
def acceptLogin (client : WorkClient) (worker : ℕ × ℕ) (request : AuthRequest) : WorkClient :=
  { client with
    workerId := worker.1
    userId := worker.2
    loggedIn := true
    payloadNum := request.payloadNum }

/-- The reading part of `xptServer_processPacket_submitShareRequest`. -/
def processSubmitShareRequest (client : WorkClient) (cpb : XptPacketbuffer) :
    Option ShareFields × ReadState :=
  if client.disconnected ∨ ¬client.loggedIn then (none, ⟨cpb,[]⟩)
  else readShareFields ⟨cpb.beginReadPacket,[]⟩

/-- The places of `chainMultiplier` that `xptCallback_checkWork` reads. -/
def chainMultiplierReads (share : ShareFields) : List ℕ := List.range share.chainMultiplierSize

/-- The numbers of a share as the check takes them. -/
def ShareFields.submitted (share : ShareFields) : SubmittedShare :=
  ⟨share.version, BitVec.ofNat 256 (littleEndian share.prevBlockHash),
    BitVec.ofNat 256 (littleEndian share.merkleRoot), share.nTime, BitVec.ofNat 32 share.nBits,
    share.nonce, share.chainMultiplier, share.share_id⟩

section Steps
variable {α β : Type} {pb : XptPacketbuffer} {k : ℕ} {copies : List (Destination × ℕ)}

/-- Reading goes on at `k`. -/
def readAt (pb : XptPacketbuffer) (k : ℕ) (copies : List (Destination × ℕ)) : ReadState :=
  ⟨{ pb with parserIndex := k },copies⟩

/-- The number of `size` bytes at `k`. -/
def numberAt (pb : XptPacketbuffer) (k size : ℕ) : ℕ := littleEndian (readBytes pb.buffer k size)

theorem numberAt_lt (pb : XptPacketbuffer) (k size : ℕ) : numberAt pb k size < 256^size := by
  have hlt := Script.littleEndian_lt (readBytes pb.buffer k size)
  rwa [readBytes_length] at hlt

theorem bind_some {reader : PacketReader α} {s s' : ReadState} {a : α}
    (h : reader s = (some a,s')) (next : α → PacketReader β) :
    (reader >>= next) s = next a s' := by
  simp only [bind, h]

theorem bind_none {reader : PacketReader α} {s s' : ReadState} (h : reader s = (none,s'))
    (next : α → PacketReader β) : (reader >>= next) s = (none,s') := by
  simp only [bind, h]

/-- A part that goes on with `a` or ends, and all that follows it. -/
theorem bind_rule {reader : PacketReader α} {s s1 s2 : ReadState} {a : α} {condition : Prop}
    [Decidable condition] {next : α → PacketReader β} {Q : Option β × ReadState → Prop}
    (h : reader s = if condition then (some a,s1) else (none,s2))
    (hend : ¬condition → Q (none,s2)) (hnext : condition → Q (next a s1)) :
    Q ((reader >>= next) s) := by
  by_cases hcondition : condition
  · rw [if_pos hcondition] at h
    rw [bind_some h]
    exact hnext hcondition
  · rw [if_neg hcondition] at h
    rw [bind_none h]
    exact hend hcondition

/-- A number is read where the packet has room for it. -/
theorem number_readAt {reader : PacketReader ℕ} {size : ℕ} (hk : k ≤ pb.bufferSize)
    (hsize : pb.bufferSize+maxDataSize ≤ 2^32) (hs : size ≤ 8)
    (hreader : reader (readAt pb k copies) =
      if ((readAt pb k copies).cpb.readNumber size).2.1 then
        (none, ⟨((readAt pb k copies).cpb.readNumber size).2.2,copies⟩)
      else (some (((readAt pb k copies).cpb.readNumber size).1 % 256^size),
        ⟨((readAt pb k copies).cpb.readNumber size).2.2,copies⟩)) :
    reader (readAt pb k copies) =
      if k+size ≤ pb.bufferSize then (some (numberAt pb k size), readAt pb (k+size) copies)
      else (none, readAt pb pb.bufferSize copies) := by
  have hvalue : numberAt pb k size % 256^size = numberAt pb k size :=
    Nat.mod_eq_of_lt (numberAt_lt pb k size)
  rcases @readNumber_cases (readAt pb k copies).cpb hk hsize size hs with
    ⟨hroom,heq⟩ | ⟨hfull,heq⟩
  · rw [if_pos (show k+size ≤ pb.bufferSize from hroom), hreader, heq, ← hvalue]
    rfl
  · rw [if_neg (show ¬ k+size ≤ pb.bufferSize from not_le.mpr hfull), hreader, heq]
    rfl

theorem readU32_readAt (hk : k ≤ pb.bufferSize) (hsize : pb.bufferSize+maxDataSize ≤ 2^32) :
    PacketReader.readU32 (readAt pb k copies) =
      if k+4 ≤ pb.bufferSize then (some (numberAt pb k 4), readAt pb (k+4) copies)
      else (none, readAt pb pb.bufferSize copies) :=
  number_readAt hk hsize (by decide) rfl

theorem readU8_readAt (hk : k ≤ pb.bufferSize) (hsize : pb.bufferSize+maxDataSize ≤ 2^32) :
    PacketReader.readU8 (readAt pb k copies) =
      if k+1 ≤ pb.bufferSize then (some (numberAt pb k 1), readAt pb (k+1) copies)
      else (none, readAt pb pb.bufferSize copies) :=
  number_readAt hk hsize (by decide) rfl

/-- An array is read where the packet has room for it, with one copy more. -/
theorem readData_readAt (hk : k ≤ pb.bufferSize) (hsize : pb.bufferSize+maxDataSize ≤ 2^32)
    {length : ℕ} (hlength : length < 256) (destination : Destination) :
    PacketReader.readData destination length (readAt pb k copies) =
      if k+length ≤ pb.bufferSize then (some (readBytes pb.buffer k length),
        readAt pb (k+length) (copies ++ [(destination,length)]))
      else (none, readAt pb pb.bufferSize copies) := by
  have hmax : maxDataSize = 2^24 := by decide
  have hshort : ¬ length ≥ maxDataSize := by omega
  have hwrap : (k+length) % 2^32 = k+length := Nat.mod_eq_of_lt (by omega)
  have hguard : ¬ (List.replicate length (0 : UInt8)).length ≥ maxDataSize := by
    rwa [List.length_replicate]
  rw [PacketReader.readData, XptPacketbuffer.readData, if_neg hguard, List.length_replicate,
    show (readAt pb k copies).cpb.parserIndex = k from rfl, hwrap]
  by_cases hroom : k+length ≤ pb.bufferSize
  · rw [if_pos hroom,
      if_neg (show ¬ k+length > (readAt pb k copies).cpb.bufferSize from not_lt.mpr hroom)]
    dsimp only
    rw [if_neg Bool.false_ne_true, if_neg hshort]
    rfl
  · rw [if_neg hroom,
      if_pos (show k+length > (readAt pb k copies).cpb.bufferSize from not_le.mp hroom)]
    rfl

theorem require_readAt (condition : Prop) [Decidable condition] (s : ReadState) :
    PacketReader.require condition s = if condition then (some (),s) else (none,s) := rfl

end Steps

section Shares
variable {α β γ δ : Type}

/-- The bytes of the packet from `k` on. -/
def restAt (pb : XptPacketbuffer) (k : ℕ) : List UInt8 := readBytes pb.buffer k (pb.bufferSize-k)

/-- A reader of the packet and a reader of its bytes go the same way; `f` is what the second one
makes of a result, and `P` is known of it. -/
def Follows {α β : Type} (P : α → Prop) (f : α → β) (fast : PacketReader α) (slow : Reader β) :
    Prop :=
  ∀ (pb : XptPacketbuffer) (k : ℕ) (copies : List (Destination × ℕ)),
    k ≤ pb.bufferSize → pb.bufferSize+maxDataSize ≤ 2^32 →
    (∃ a k' copies', k' ≤ pb.bufferSize ∧ P a ∧
      fast (readAt pb k copies) = (some a, readAt pb k' copies') ∧
      slow (restAt pb k) = some (f a, restAt pb k')) ∨
    ((fast (readAt pb k copies)).1 = none ∧ slow (restAt pb k) = none)

theorem restAt_length (pb : XptPacketbuffer) (k : ℕ) : (restAt pb k).length = pb.bufferSize-k :=
  readBytes_length _ _ _

/-- The bytes at `k` and what is left behind them. -/
theorem restAt_split {pb : XptPacketbuffer} {k length : ℕ} (hroom : k+length ≤ pb.bufferSize) :
    (restAt pb k).take length = readBytes pb.buffer k length ∧
      (restAt pb k).drop length = restAt pb (k+length) := by
  have hsplit : restAt pb k = readBytes pb.buffer k length ++ restAt pb (k+length) := by
    rw [restAt, restAt, ← readBytes_add]
    congr 1
    omega
  have hlength : (readBytes pb.buffer k length).length = length := readBytes_length _ _ _
  constructor
  · rw [hsplit, List.take_left' hlength]
  · rw [hsplit, List.drop_left' hlength]

theorem Follows.bind {P : α → Prop} {R : γ → Prop} {f : α → β} {g : γ → δ} {fast : PacketReader α}
    {slow : Reader β} {next : α → PacketReader γ} {next' : β → Reader δ}
    (hfirst : Follows P f fast slow) (hnext : ∀ a, P a → Follows R g (next a) (next' (f a))) :
    Follows R g (fast >>= next) (slow >>= next') := by
  intro pb k copies hk hsize
  rcases hfirst pb k copies hk hsize with ⟨a,k',copies',hk',ha,hfast,hslow⟩ | ⟨hfast,hslow⟩
  · have hstep : (slow >>= next') (restAt pb k) = next' (f a) (restAt pb k') := by
      change (slow (restAt pb k)).bind _ = _
      rw [hslow]
      rfl
    rw [bind_some hfast, hstep]
    exact hnext a ha pb k' copies' hk' hsize
  · refine Or.inr ⟨?_,?_⟩
    · rw [bind_none (Prod.ext hfast rfl)]
    · change (slow (restAt pb k)).bind _ = _
      rw [hslow]
      rfl

theorem follows_pure {f : α → β} (a : α) :
    Follows (fun _ => True) f (pure a) (pure (f a)) :=
  fun _ k copies hk _ => Or.inl ⟨a,k,copies,hk,trivial,rfl,rfl⟩

/-- A reader that takes `length` bytes. -/
theorem follows_bytes {P : α → Prop} {f : α → β} {fast : PacketReader α} {slow : Reader β}
    {length : ℕ} (decode : List UInt8 → α) (copied : List (Destination × ℕ))
    (hP : ∀ bytes, bytes.length = length → P (decode bytes))
    (hfast : ∀ (pb : XptPacketbuffer) (k : ℕ) (copies : List (Destination × ℕ)),
      k ≤ pb.bufferSize → pb.bufferSize+maxDataSize ≤ 2^32 → fast (readAt pb k copies) =
        if k+length ≤ pb.bufferSize then
          (some (decode (readBytes pb.buffer k length)), readAt pb (k+length) (copies ++ copied))
        else (none, readAt pb pb.bufferSize copies))
    (hslow : ∀ bytes, slow bytes = if length > bytes.length then none
      else some (f (decode (bytes.take length)), bytes.drop length)) :
    Follows P f fast slow := by
  intro pb k copies hk hsize
  rw [hfast pb k copies hk hsize, hslow, restAt_length]
  by_cases hroom : k+length ≤ pb.bufferSize
  · obtain ⟨htake,hdrop⟩ := restAt_split hroom
    rw [if_pos hroom, if_neg (by omega), htake, hdrop]
    exact Or.inl ⟨_,_,_,hroom,hP _ (readBytes_length _ _ _),rfl,rfl⟩
  · rw [if_neg hroom, if_pos (by omega)]
    exact Or.inr ⟨rfl,rfl⟩

theorem readNumber_eq (size : ℕ) (bytes : List UInt8) : readNumber size bytes =
    if size > bytes.length then none
    else some (littleEndian (bytes.take size), bytes.drop size) := by
  change (readData size bytes).bind _ = _
  rw [readData]
  split_ifs <;> rfl

theorem follows_readU32 : Follows (fun _ => True) id PacketReader.readU32 (readNumber 4) := by
  apply follows_bytes littleEndian [] (fun _ _ => trivial)
  · intro pb k copies hk hsize
    rw [readU32_readAt hk hsize, List.append_nil]
    rfl
  · exact readNumber_eq 4

theorem follows_readU8 : Follows (· < 256) id PacketReader.readU8 (readNumber 1) := by
  apply follows_bytes littleEndian []
  · intro bytes hlength
    have hlt := Script.littleEndian_lt bytes
    rwa [hlength, pow_one] at hlt
  · intro pb k copies hk hsize
    rw [readU8_readAt hk hsize, List.append_nil]
    rfl
  · exact readNumber_eq 1

theorem follows_readData (destination : Destination) {length : ℕ} (hlength : length < 256) :
    Follows (fun _ => True) id (PacketReader.readData destination length) (readData length) := by
  apply follows_bytes id [(destination,length)] (fun _ _ => trivial)
  · intro pb k copies hk hsize
    rw [readData_readAt hk hsize hlength]
    rfl
  · exact fun _ => rfl

/-- The share check takes the bytes of a hash as a number. -/
theorem follows_hash (destination : Destination) :
    Follows (fun _ => True) littleEndian (PacketReader.readData destination 32) (readNumber 32) := by
  apply follows_bytes id [(destination,32)] (fun _ _ => trivial)
  · intro pb k copies hk hsize
    rw [readData_readAt hk hsize (by decide)]
    rfl
  · exact readNumber_eq 32

/-- The handler and the reader of the share check find the same share. -/
theorem follows_share :
    Follows (fun _ => True) ShareFields.submitted readShareFields readSubmittedShare := by
  refine (follows_hash .merkleRoot).bind fun merkleRoot _ => ?_
  refine (follows_hash .prevBlockHash).bind fun prevBlockHash _ => ?_
  refine follows_readU32.bind fun version _ => ?_
  refine follows_readU32.bind fun nTime _ => ?_
  refine follows_readU32.bind fun nonce _ => ?_
  refine follows_readU32.bind fun nBits _ => ?_
  refine follows_readU32.bind fun sieveSize _ => ?_
  refine follows_readU32.bind fun sieveCandidate _ => ?_
  refine follows_readU8.bind fun fixedMultiplierSize hfixed => ?_
  refine (follows_readData .fixedMultiplier hfixed).bind fun fixedMultiplier _ => ?_
  refine follows_readU8.bind fun chainMultiplierSize hchain => ?_
  refine (follows_readData .chainMultiplier hchain).bind fun chainMultiplier _ => ?_
  refine follows_readU32.bind fun share_id _ => ?_
  exact follows_pure _

theorem readShareFields_submitted {pb : XptPacketbuffer} (hstart : 4 ≤ pb.bufferSize)
    (hsize : pb.bufferSize+maxDataSize ≤ 2^32) :
    (readShareFields ⟨pb.beginReadPacket,[]⟩).1.map ShareFields.submitted =
      (readSubmittedShare (restAt pb 4)).map Prod.fst := by
  rcases follows_share pb 4 [] hstart hsize with ⟨share,k,copies,-,-,hfast,hslow⟩ | ⟨hfast,hslow⟩
  · change (readShareFields (readAt pb 4 [])).1.map _ = _
    rw [hfast, hslow]
    rfl
  · change (readShareFields (readAt pb 4 [])).1.map _ = _
    rw [hfast, hslow]
    rfl

end Shares

/-- No copy is larger than its array. -/
def ReadState.Fits (s : ReadState) : Prop := ∀ copy ∈ s.copies, copy.2 ≤ copy.1.size

/-- The check reads only what was copied from the packet. -/
def ReadsReceived (result : Option ShareFields × ReadState) : Prop :=
  ∀ share, result.1 = some share → ∀ i ∈ chainMultiplierReads share,
    ∃ size, (Destination.chainMultiplier,size) ∈ result.2.copies ∧ i < size

/-- The multipliers that the packet announces and has room for are no longer than their arrays. -/
def MultipliersFit (cpb : XptPacketbuffer) : Prop :=
  let fixedSize := (cpb.buffer 92).toNat
  let chainSize := (cpb.buffer (93+fixedSize)).toNat
  (93+fixedSize ≤ cpb.bufferSize → fixedSize ≤ 201) ∧
    (94+fixedSize+chainSize ≤ cpb.bufferSize → chainSize ≤ 201)

section Copies
variable {pb : XptPacketbuffer}

theorem numberAt_one (pb : XptPacketbuffer) (k : ℕ) : numberAt pb k 1 = (pb.buffer k).toNat := by
  change littleEndian [pb.buffer (k+0)] = _
  rw [littleEndian, littleEndian, Nat.mul_zero, Nat.add_zero, Nat.add_zero]

theorem fits_nil (cpb : XptPacketbuffer) : (ReadState.mk cpb []).Fits :=
  fun _ hmem => absurd hmem List.not_mem_nil

theorem fits_append {k : ℕ} {copies : List (Destination × ℕ)} {destination : Destination}
    {length : ℕ} : (readAt pb k (copies ++ [(destination,length)])).Fits ↔
      (readAt pb k copies).Fits ∧ length ≤ destination.size := by
  constructor
  · intro h
    refine ⟨fun copy hmem => h copy (List.mem_append_left _ hmem),?_⟩
    exact h (destination,length) (List.mem_append_right _ List.mem_cons_self)
  · rintro ⟨hcopies,hlength⟩ copy hmem
    rcases List.mem_append.mp hmem with hmem | hmem
    · exact hcopies copy hmem
    · obtain rfl := List.mem_singleton.mp hmem
      exact hlength

/-- A login that is refused or whose number of workloads is in range, with copies that fit. -/
def LoginSound (result : Option AuthRequest × ReadState) : Prop :=
  result.2.Fits ∧ ∀ request, result.1 = some request →
    1 ≤ request.payloadNum ∧ request.payloadNum ≤ 128

theorem loginSound_none {s : ReadState} (hfits : s.Fits) : LoginSound (none,s) :=
  ⟨hfits,fun _ h => absurd h (Option.some_ne_none _).symm⟩

/-- The lengths of a login are checked before its copies are made. -/
theorem readAuthRequest_sound (hstart : 4 ≤ pb.bufferSize)
    (hsize : pb.bufferSize+maxDataSize ≤ 2^32) :
    LoginSound (readAuthRequest ⟨pb.beginReadPacket,[]⟩) := by
  have hnil (cpb : XptPacketbuffer) : LoginSound (none,⟨cpb,[]⟩) := loginSound_none (fits_nil cpb)
  change LoginSound (readAuthRequest (readAt pb 4 []))
  refine bind_rule (readU32_readAt hstart hsize) (fun _ => hnil _) fun hversion => ?_
  refine bind_rule (readU8_readAt hversion hsize) (fun _ => hnil _) fun hname => ?_
  refine bind_rule (require_readAt _ _) (fun _ => hnil _) fun hnameLength => ?_
  generalize numberAt pb (4+4) 1 = nameLength at hnameLength ⊢
  refine bind_rule (readData_readAt hname hsize (by omega) _) (fun _ => hnil _) fun husername => ?_
  have hcopy (k : ℕ) : (readAt pb k ([] ++ [(Destination.username,nameLength)])).Fits :=
    fits_append.mpr ⟨fits_nil _,by change nameLength ≤ 132; omega⟩
  refine bind_rule (readU8_readAt husername hsize) (fun _ => loginSound_none (hcopy _)) fun hpass => ?_
  refine bind_rule (require_readAt _ _) (fun _ => loginSound_none (hcopy _)) fun hpassLength => ?_
  generalize numberAt pb (4+4+1+nameLength) 1 = passLength at hpassLength ⊢
  refine bind_rule (readData_readAt hpass hsize (by omega) _)
    (fun _ => loginSound_none (hcopy _)) fun hpassword => ?_
  have hcopies (k : ℕ) : (readAt pb k ([] ++ [(Destination.username,nameLength)] ++
      [(Destination.password,passLength)])).Fits :=
    fits_append.mpr ⟨hcopy k,by change passLength ≤ 132; omega⟩
  refine bind_rule (readU32_readAt hpassword hsize) (fun _ => loginSound_none (hcopies _)) fun _ => ?_
  refine bind_rule (require_readAt _ _) (fun _ => loginSound_none (hcopies _)) fun hpayload => ?_
  refine ⟨hcopies _,?_⟩
  intro request hrequest
  obtain rfl := Option.some.inj hrequest
  dsimp only
  omega

/-- The copies fit and the check reads what was received, or the multipliers do not fit. -/
def ShareSound (pb : XptPacketbuffer) (result : Option ShareFields × ReadState) : Prop :=
  (result.2.Fits ∧ ReadsReceived result) ↔ MultipliersFit pb

theorem readsReceived_none (s : ReadState) : ReadsReceived (none,s) :=
  fun _ h => absurd h (Option.some_ne_none _).symm

/-- A packet that ends before its fixed multiplier does. -/
theorem shareSound_early {s : ReadState} (hfits : s.Fits)
    (hearly : pb.bufferSize < 93+(pb.buffer 92).toNat) : ShareSound pb (none,s) := by
  constructor
  · intro _
    constructor
    · intro hroom
      omega
    · intro hroom
      omega
  · intro _
    exact ⟨hfits,readsReceived_none s⟩

/-- A packet that ends between its fixed multiplier and the end of its chain multiplier. -/
theorem shareSound_fixed {s : ReadState} (hfits : s.Fits ↔ (pb.buffer 92).toNat ≤ 201)
    (hfixed : 93+(pb.buffer 92).toNat ≤ pb.bufferSize)
    (hearly : pb.bufferSize <
      94+(pb.buffer 92).toNat+(pb.buffer (93+(pb.buffer 92).toNat)).toNat) :
    ShareSound pb (none,s) := by
  constructor
  · rintro ⟨hcopies,-⟩
    refine ⟨fun _ => hfits.mp hcopies,?_⟩
    intro hroom
    omega
  · intro hmult
    exact ⟨hfits.mpr (hmult.1 hfixed),readsReceived_none s⟩

/-- A packet with both multipliers, whether or not a share comes out of it. -/
theorem shareSound_chain {result : Option ShareFields × ReadState}
    (hfits : result.2.Fits ↔ (pb.buffer 92).toNat ≤ 201 ∧
      (pb.buffer (93+(pb.buffer 92).toNat)).toNat ≤ 201)
    (hreads : ReadsReceived result)
    (hroom : 94+(pb.buffer 92).toNat+(pb.buffer (93+(pb.buffer 92).toNat)).toNat ≤
      pb.bufferSize) : ShareSound pb result := by
  constructor
  · rintro ⟨hcopies,-⟩
    exact ⟨fun _ => (hfits.mp hcopies).1,fun _ => (hfits.mp hcopies).2⟩
  · intro hmult
    exact ⟨hfits.mpr ⟨hmult.1 (by omega),hmult.2 hroom⟩,hreads⟩

theorem readShareFields_sound (hstart : 4 ≤ pb.bufferSize)
    (hsize : pb.bufferSize+maxDataSize ≤ 2^32) :
    ShareSound pb (readShareFields ⟨pb.beginReadPacket,[]⟩) := by
  have hfixed := (pb.buffer 92).toNat_lt
  -- the hashes have the size of their arrays, so only the multipliers can overrun
  have hcopy (k : ℕ) : (readAt pb k ([] ++ [(Destination.merkleRoot,32)])).Fits :=
    fits_append.mpr ⟨fits_nil _,le_rfl⟩
  have hcopies (k : ℕ) : (readAt pb k ([] ++ [(Destination.merkleRoot,32)] ++
      [(Destination.prevBlockHash,32)])).Fits :=
    fits_append.mpr ⟨hcopy k,le_rfl⟩
  change ShareSound pb (readShareFields (readAt pb 4 []))
  refine bind_rule (readData_readAt hstart hsize (by decide) _)
    (fun _ => shareSound_early (fits_nil _) (by omega)) fun h36 => ?_
  refine bind_rule (readData_readAt h36 hsize (by decide) _)
    (fun _ => shareSound_early (hcopy _) (by omega)) fun h68 => ?_
  -- the six numbers before the multipliers end alike
  have hends {k : ℕ} (hk : k < 93) (hend : ¬ k ≤ pb.bufferSize) :
      ShareSound pb (none, readAt pb pb.bufferSize ([] ++ [(Destination.merkleRoot,32)] ++
        [(Destination.prevBlockHash,32)])) :=
    shareSound_early (hcopies _) (by omega)
  refine bind_rule (readU32_readAt h68 hsize) (hends (by decide)) fun h72 => ?_
  refine bind_rule (readU32_readAt h72 hsize) (hends (by decide)) fun h76 => ?_
  refine bind_rule (readU32_readAt h76 hsize) (hends (by decide)) fun h80 => ?_
  refine bind_rule (readU32_readAt h80 hsize) (hends (by decide)) fun h84 => ?_
  refine bind_rule (readU32_readAt h84 hsize) (hends (by decide)) fun h88 => ?_
  refine bind_rule (readU32_readAt h88 hsize) (hends (by decide)) fun h92 => ?_
  have hplace : 4+32+32+4+4+4+4+4+4 = 92 := rfl
  rw [hplace] at h92 ⊢
  refine bind_rule (readU8_readAt h92 hsize)
    (fun _ => shareSound_early (hcopies _) (by omega)) fun h93 => ?_
  rw [numberAt_one, show 92+1 = 93 from rfl]
  refine bind_rule (readData_readAt h93 hsize hfixed _)
    (fun hend => shareSound_early (hcopies _) (by omega)) fun hroom => ?_
  have hfits (k : ℕ) : (readAt pb k ([] ++ [(Destination.merkleRoot,32)] ++
      [(Destination.prevBlockHash,32)] ++
        [(Destination.fixedMultiplier,(pb.buffer 92).toNat)])).Fits ↔
      (pb.buffer 92).toNat ≤ 201 :=
    fits_append.trans (and_iff_right (hcopies k))
  refine bind_rule (readU8_readAt hroom hsize)
    (fun hend => shareSound_fixed (hfits _) (by omega) (by omega)) fun hchain => ?_
  have hchainSize := (pb.buffer (93+(pb.buffer 92).toNat)).toNat_lt
  rw [numberAt_one]
  refine bind_rule (readData_readAt hchain hsize hchainSize _)
    (fun hend => shareSound_fixed (hfits _) (by omega) (by omega)) fun hroom' => ?_
  have hfits' (k : ℕ) : (readAt pb k ([] ++ [(Destination.merkleRoot,32)] ++
      [(Destination.prevBlockHash,32)] ++ [(Destination.fixedMultiplier,(pb.buffer 92).toNat)] ++
        [(Destination.chainMultiplier,(pb.buffer (93+(pb.buffer 92).toNat)).toNat)])).Fits ↔
      (pb.buffer 92).toNat ≤ 201 ∧ (pb.buffer (93+(pb.buffer 92).toNat)).toNat ≤ 201 :=
    fits_append.trans (and_congr_left fun _ => hfits k)
  refine bind_rule (readU32_readAt hroom' hsize)
    (fun _ => shareSound_chain (hfits' _) (readsReceived_none _) (by omega)) fun _ => ?_
  refine shareSound_chain (hfits' _) ?_ (by omega)
  intro share hshare i hi
  obtain rfl := Option.some.inj hshare
  refine ⟨_,List.mem_append_right _ List.mem_cons_self,?_⟩
  exact List.mem_range.mp hi

/-- The copies of a login fit whatever the packet says. Those of a share fit, and the check reads
what was received, exactly if the announced multipliers do. -/
theorem handlers_write_inside_iff (client : WorkClient) {cpb : XptPacketbuffer}
    (hstart : 4 ≤ cpb.bufferSize) (hsize : cpb.bufferSize+maxDataSize ≤ 2^32) :
    ((processAuthRequest client cpb).2.Fits ∧ (processSubmitShareRequest client cpb).2.Fits ∧
      ReadsReceived (processSubmitShareRequest client cpb)) ↔
    (client.disconnected = false ∧ client.loggedIn = true → MultipliersFit cpb) := by
  have hauth : (processAuthRequest client cpb).2.Fits := by
    rw [processAuthRequest]
    split_ifs
    · exact fits_nil cpb
    · exact (readAuthRequest_sound hstart hsize).1
  rw [and_iff_right hauth, processSubmitShareRequest]
  by_cases hclient : client.disconnected = true ∨ ¬client.loggedIn = true
  · rw [if_pos hclient]
    constructor
    · rintro - ⟨hconnected,hlogin⟩
      rcases hclient with hdisconnected | hnew
      · exact absurd hdisconnected (by rw [hconnected]; exact Bool.false_ne_true)
      · exact absurd hlogin hnew
    · intro _
      exact ⟨fits_nil cpb,readsReceived_none _⟩
  · rw [if_neg hclient]
    obtain ⟨hconnected,hlogin⟩ := not_or.mp hclient
    have hready : client.disconnected = false ∧ client.loggedIn = true :=
      ⟨Bool.eq_false_iff.mpr hconnected,not_not.mp hlogin⟩
    exact (readShareFields_sound hstart hsize).trans ⟨fun h _ => h,fun h => h hready⟩

/-- A client that may submit shares. -/
def minerClient : WorkClient :=
  { disconnected := false, loggedIn := true, workerId := 1, userId := 1, payloadNum := 1
    arrCurrentBlocks := [], currentKey := true }

/-- A share whose multipliers have `fixedSize` bytes and none. -/
def multiplierPacket (fixedSize : UInt8) : XptPacketbuffer :=
  { buffer := fun i => if i = 92 then fixedSize else 0
    parserIndex := 0, bufferLimit := 4096, bufferSize := 4+89+fixedSize.toNat+5 }

theorem handlers_write_inside_iff_short :
    (processSubmitShareRequest minerClient (multiplierPacket 201)).2.Fits :=
  ((@handlers_write_inside_iff minerClient (multiplierPacket 201) (by decide) (by decide)).mpr
    fun _ => ⟨fun _ => by decide,fun _ => by decide⟩).2.1

/-- A length of 255 is copied into the 201 bytes of `fixedMultiplier`. -/
theorem fixedMultiplier_overrun : 4 ≤ (multiplierPacket 255).bufferSize ∧
    (multiplierPacket 255).bufferSize+maxDataSize ≤ 2^32 ∧
    (Destination.fixedMultiplier,255) ∈
      (processSubmitShareRequest minerClient (multiplierPacket 255)).2.copies ∧
    ¬ (processSubmitShareRequest minerClient (multiplierPacket 255)).2.Fits := by
  have hcopy : (Destination.fixedMultiplier,255) ∈
      (processSubmitShareRequest minerClient (multiplierPacket 255)).2.copies := by
    decide +kernel
  refine ⟨by decide,by decide,hcopy,?_⟩
  intro hfits
  exact absurd (hfits _ hcopy) (by decide)

end Copies

end Candypool.Pool
