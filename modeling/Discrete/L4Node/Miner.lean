import Discrete.Core.Machine
import Discrete.L4Node.Identity
import Discrete.L4Node.TemplateReward

/-!
# The miner (`Miner.cpp`)

Worker threads copy the block template, sign it nonce by nonce with the resident key and hand
what meets the difficulty to `handle_block_found`. The calls that start and stop them write
the same fields from outside: the keys come from `startPq` or `startPqWhenSynchronized`, the
template from `get_block_template_pq`, which is asked for the key in place at that moment.

Calls are events of one machine and exclude each other; a worker's turn is cut where it reads
a field that a call writes, so worker steps fall between any two of its reads. `stop` sets the
flag and joins, and its second half waits for the workers to leave their loops.

* `restart_signs_stale`: `start` asks for a template only when there is none. After a stop the old
  one is still there, so a start with another identity mines a block that pays the first
  and is signed by the second. A `startPq` that is refused has already replaced the keys, and
  then clears them.
* `miner_signs_template`: where nobody starts a running miner, or a stopped one with an
  identity that its template does not pay, every block found is signed by the key its
  coinbase names. What a refused call leaves alone is what was cleared before.
-/
namespace Discrete.L4
open List L1 L2 L3 Codec

/-! ## State -/

def pqSpendSecretSize : Nat := 4032

/-- `dsaSign` is `none` where signing throws. -/
structure MinerEnv extends NodeEnv where
  pow : PowPrimitives
  pow_prims : prims = pow.nodePrimitives
  dsaSign : Blob pqSpendSecretSize → Bytes → Option (Blob pqSignatureSize)
  extraMessages : List Bytes

/-- The keys of one wallet, as `deriveMinerPqKeys` makes them: what the secret signs verifies. -/
structure MinerIdentity (M : MinerEnv) where
  viewPub : Blob pqViewPubSize
  spendPub : Blob pqAuthPubSize
  spendSk : Blob pqSpendSecretSize
  signs : ∀ msg sig, M.dsaSign spendSk msg = some sig → M.pow.dsaVerify spendPub msg sig = true

/-- Where a worker is in its loop.
* `top`: before the tests of `m_stop`, the pause and the template number;
* `copied`: it has copied the template and not noted its number;
* `ready`: the nonce is set;
* `proving`: it has seen `m_pq_keys_set`;
* `proved`: the candidate is signed. -/
inductive WorkerPc where
  | top | copied | ready | proving
  | proved (pow : Hash)
  | exited
  deriving DecidableEq

structure Worker where
  index : UInt32
  pc : WorkerPc
  nonce : UInt32
  localDiff : UInt64
  localTemplateVer : UInt32
  b : Block

structure Miner where
  stop : Bool
  template : Block
  templateNo : UInt32
  starterNonce : UInt32
  diffic : UInt64
  threadsTotal : UInt32
  pausersCount : Int
  threads : List Worker
  pqViewPub : Blob pqViewPubSize
  pqSpendPub : Blob pqAuthPubSize
  pqSpendSk : Blob pqSpendSecretSize
  pqKeysSet : Bool
  currentExtraMessageIndex : Nat
  doMining : Bool
  /-- A `stop` that waits for the workers, with its `keepMiningRequested`. -/
  joining : Option Bool
  /-- What was passed to `handle_block_found`. -/
  found : List Block

def blankBlock : Block where
  majorVersion := 0
  minorVersion := 0
  nonce := 0
  timestamp := 0
  previousBlockHash := nullHash
  baseTransaction := ⟨⟨0, 0, 0, [], [], []⟩, []⟩
  signature := []
  transactionHashes := []

/-- mirrors Miner.cpp:52-73 -/
def Miner.new : Miner where
  stop := true
  template := blankBlock
  templateNo := 0
  starterNonce := 0
  diffic := 0
  threadsTotal := 0
  pausersCount := 0
  threads := []
  pqViewPub := zeroBlob _
  pqSpendPub := zeroBlob _
  pqSpendSk := zeroBlob _
  pqKeysSet := false
  currentExtraMessageIndex := 0
  doMining := false
  joining := none
  found := []

/-! ## Calls -/

section Calls
variable (M : MinerEnv)

def Miner.isMining (m : Miner) : Bool := !m.stop

/-- mirrors Miner.cpp:85-90 -/
def Miner.clearPqKeys (m : Miner) : Miner :=
  { m with pqSpendSk := zeroBlob _, pqSpendPub := zeroBlob _, pqViewPub := zeroBlob _, pqKeysSet := false }

def Miner.setPqKeys {M : MinerEnv} (m : Miner) (id : MinerIdentity M) : Miner :=
  { m with pqViewPub := id.viewPub, pqSpendPub := id.spendPub, pqSpendSk := id.spendSk, pqKeysSet := true }

/-- Templates have version 1, so there is no merge-mining tag to make.
mirrors Miner.cpp:92-115 -/
def Miner.setBlockTemplate (m : Miner) (bl : Block) (di : UInt64) (random : UInt32) : Miner :=
  { m with template := bl, diffic := di, templateNo := m.templateNo + 1, starterNonce := random }

/-- `node` is the core as it is at the moment of the call.
mirrors Miner.cpp:125-153 -/
def Miner.requestBlockTemplate (m : Miner) (node : Node) (random : UInt32) : Bool × Miner :=
  let extraNonce := (M.extraMessages[m.currentExtraMessageIndex]?).getD []
  if m.pqKeysSet = false then (false, m)
  else
    match (node.getBlockTemplatePq M.toNodeEnv m.pqSpendPub extraNonce).1 with
    | none => (false, m)
    | some (bl, di) => (true, m.setBlockTemplate bl di random)

/-- Also the part of `on_idle` that is about the template.
mirrors Miner.cpp:117-123, 155-160 -/
def Miner.onBlockChainUpdate (m : Miner) (node : Node) (random : UInt32) : Bool × Miner :=
  if m.isMining then m.requestBlockTemplate M node random else (true, m)

def Worker.new (m : Miner) (index : Nat) : Worker :=
  ⟨UInt32.ofNat index, .top, m.starterNonce + UInt32.ofNat index, 0, 0, blankBlock⟩

/-- A template is asked for only where there has been none.
mirrors Miner.cpp:317-321 -/
def Miner.ensureTemplate (m : Miner) (node : Node) (random : UInt32) : Bool × Miner :=
  if m.templateNo = 0 then m.requestBlockTemplate M node random else (true, m)

/-- mirrors Miner.cpp:298-333 -/
def Miner.start (m : Miner) (threadsCount : Nat) (node : Node) (random random' : UInt32) : Bool × Miner :=
  if m.isMining then (false, m)
  else if m.threads.isEmpty = false then (false, m)
  else
    let m := { m with threadsTotal := UInt32.ofNat threadsCount, starterNonce := random }
    match m.ensureTemplate M node random' with
    | (false, m) => (false, m)
    | (true, m) =>
      (true, { m with doMining := true, stop := false, pausersCount := 0,
                      threads := (List.range threadsCount).map (Worker.new m) })

/-- The keys are written before anything is checked.
mirrors Miner.cpp:256-273 -/
def Miner.startPq (m : Miner) (id : MinerIdentity M) (threadsCount : Nat) (node : Node) (random random' : UInt32) :
    Bool × Miner :=
  match (m.setPqKeys id).start M threadsCount node random random' with
  | (false, m) => (false, m.clearPqKeys)
  | (true, m) => (true, m)

/-- mirrors Miner.cpp:275-296 -/
def Miner.startPqWhenSynchronized {M : MinerEnv} (m : Miner) (id : MinerIdentity M) (threadsCount : Nat) : Bool × Miner :=
  if m.isMining then (false, m)
  else (true, { m.setPqKeys id with threadsTotal := UInt32.ofNat threadsCount, doMining := true })

/-- mirrors Miner.cpp:388-393 -/
def Miner.onSynchronized (m : Miner) (node : Node) (random random' : UInt32) : Miner :=
  if m.doMining && !m.isMining then (m.start M m.threadsTotal.toNat node random random').2 else m

/-- `stop`, up to the join. -/
def Miner.sendStop (m : Miner) (keepMiningRequested : Bool) : Miner :=
  let m := if keepMiningRequested then m else { m with doMining := false }
  if m.threads.isEmpty then if keepMiningRequested then m else m.clearPqKeys
  else { m with stop := true, joining := some keepMiningRequested }

/-- `stop`, from the join on; the workers have left.
mirrors Miner.cpp:351-386 -/
def Miner.join (m : Miner) (keepMiningRequested : Bool) : Miner :=
  let m := { m with threads := [], joining := none }
  if keepMiningRequested then m else m.clearPqKeys

/-! ## Workers -/

/-- `none`: signing throws. The signature stays in the block when the memory-hard part fails.
mirrors CryptoNoteFormatUtils.cpp:352-360 -/
def discretePowerProve (blob : Bytes) (sk : Blob pqSpendSecretSize) : Option (Blob pqSignatureSize × Option Hash) :=
  (M.dsaSign sk (powMessage M.pow blob)).map fun sig =>
    (sig, discretePowerMemoryAndFinal M.pow (discretePowerHeaderFromBlob M.pow blob) sig.val)

/-- The nonce is set, once there is a template. -/
def Worker.candidate (w : Worker) : Worker :=
  if w.localTemplateVer = 0 then { w with pc := .top }
  else { w with b := { w.b with nonce := w.nonce }, pc := .ready }

def Worker.next (m : Miner) (w : Worker) : Worker := { w with nonce := w.nonce + m.threadsTotal, pc := .top }

/-- One step of a worker, with what it writes outside. `accepted` is the answer of
`handle_block_found`. `get_block_hash` cannot fail for a block whose blob was just signed.
mirrors Miner.cpp:415-508 -/
def Worker.step (m : Miner) (w : Worker) (accepted : Bool) : Miner × Worker :=
  match w.pc with
  | .top =>
    if m.stop then (m, { w with pc := .exited })
    else if m.pausersCount ≠ 0 then (m, w)
    else if w.localTemplateVer ≠ m.templateNo then
      (m, { w with b := m.template, localDiff := m.diffic, pc := .copied })
    else (m, w.candidate)
  | .copied =>
    let w := { w with localTemplateVer := m.templateNo, nonce := m.starterNonce + w.index }
    (m, w.candidate)
  | .ready =>
    if m.pqKeysSet = false then ({ m with stop := true }, w.next m)
    else if m.stop then (m, w.next m)
    else (m, { w with pc := .proving })
  | .proving =>
    match getBlockHashingBlob M.pow.toPrimitives w.b with
    | none => ({ m with stop := true }, w.next m)
    | some blob =>
      match discretePowerProve M blob m.pqSpendSk with
      | none => ({ m with stop := true }, w.next m)
      | some (sig, none) => ({ m with stop := true }, ({ w with b := { w.b with signature := sig.val } }).next m)
      | some (sig, some pow) => (m, { w with b := { w.b with signature := sig.val }, pc := .proved pow })
  | .proved pow =>
    if m.stop = false && checkHash pow w.localDiff then
      ({ m with
          found := m.found ++ [w.b]
          currentExtraMessageIndex := if accepted then m.currentExtraMessageIndex + 1 else m.currentExtraMessageIndex },
        w.next m)
    else (m, w.next m)
  | .exited => (m, w)

def Miner.work (m : Miner) (i : Nat) (accepted : Bool) : Option Miner :=
  m.threads[i]?.map fun w =>
    let r := w.step M m accepted
    { r.1 with threads := r.1.threads.set i r.2 }

end Calls

/-! ## The machine -/

inductive MinerEvent (M : MinerEnv) where
  | startPq (id : MinerIdentity M) (threadsCount : Nat) (node : Node) (random random' : UInt32)
  | startPqWhenSynchronized (id : MinerIdentity M) (threadsCount : Nat)
  | stop (keepMiningRequested : Bool)
  | join
  | onSynchronized (node : Node) (random random' : UInt32)
  | onBlockChainUpdate (node : Node) (random : UInt32)
  | pause
  | resume
  | work (i : Nat) (accepted : Bool)

/-- A call waits for a `stop` that has not returned, and `stop` for the workers. -/
def minerStep (M : MinerEnv) (m : Miner) : MinerEvent M → Option Miner
  | .startPq id n node r r' => if m.joining.isSome then none else some (m.startPq M id n node r r').2
  | .startPqWhenSynchronized id n => if m.joining.isSome then none else some (m.startPqWhenSynchronized id n).2
  | .stop keep => if m.joining.isSome then none else some (m.sendStop keep)
  | .join => if m.threads.all (fun w => w.pc = .exited) then m.joining.map m.join else none
  | .onSynchronized node r r' => if m.joining.isSome then none else some (m.onSynchronized M node r r')
  | .onBlockChainUpdate node r => some (m.onBlockChainUpdate M node r).2
  | .pause => some { m with pausersCount := m.pausersCount + 1 }
  | .resume => some { m with pausersCount := max 0 (m.pausersCount - 1) }
  | .work i accepted => m.work M i accepted

def minerMachine (M : MinerEnv) : Machine Miner (MinerEvent M) where
  Init m := m = .new
  step := minerStep M

/-- The key that a block's coinbase names. -/
def minerKeyOf (b : Block) : Option (Blob pqAuthPubSize) := getPqMinerSpendPubFromExtra b.baseTransaction.extra

/-- The block is signed by the key that its coinbase names. -/
def SelfSigned (M : MinerEnv) (b : Block) : Prop := ∃ key, minerKeyOf b = some key ∧ MinedBy M.pow b key

/-! ## Templates name the key they are made for -/

theorem readField_minerKey (key : Blob pqAuthPubSize) (rest : Bytes) :
    readField txExtraTagPqMinerSpendPub (key.val ++ rest) = some (some (.pqMinerSpendPub key), rest) := by
  have hread : readBlob pqAuthPubSize (key.val ++ rest) = some (key, rest) := readBlob_inverts _ trivial rest
  show (readBlob pqAuthPubSize (key.val ++ rest)).map (fun x => (some (ExtraField.pqMinerSpendPub x.1), x.2)) = _
  rw [hread]
  rfl

theorem readField_nonce {nonce : Bytes} (h : nonce.length ≤ txExtraNonceMaxCount) :
    readField txExtraNonce (UInt8.ofNat nonce.length :: nonce) = some (some (.nonce nonce), []) := by
  have hsize : (UInt8.ofNat nonce.length).toNat = nonce.length := by
    rw [UInt8.toNat_ofNat']
    exact Nat.mod_eq_of_lt (Nat.lt_succ_of_le h)
  have hread : readExact (UInt8.ofNat nonce.length).toNat nonce = some (nonce, []) := by
    rw [hsize]
    exact readExact_eq_some.mpr ⟨(append_nil _).symm, rfl⟩
  show (readExact (UInt8.ofNat nonce.length).toNat nonce).map (fun x => (some (ExtraField.nonce x.1), x.2)) = _
  rw [hread]
  rfl

/-- An extra that starts with a miner key names it if the rest parses. -/
theorem minerKey_of_parse {key : Blob pqAuthPubSize} {rest : Bytes}
    (h : (parseFields (key.val ++ rest).length rest).2 = true) :
    getPqMinerSpendPubFromExtra (txExtraTagPqMinerSpendPub :: (key.val ++ rest)) = some key := by
  have hparse : parseFields (key.val ++ rest).length.succ (txExtraTagPqMinerSpendPub :: (key.val ++ rest)) =
      (.pqMinerSpendPub key :: (parseFields (key.val ++ rest).length rest).1, true) := by
    rw [parseFields, readField_minerKey]
    exact Prod.ext rfl h
  unfold getPqMinerSpendPubFromExtra fieldFromExtra parseTransactionExtra
  rw [length_cons, hparse]
  rfl

theorem constructMinerTxPq_key {P : Primitives} {height medianSize size : Nat} {coins fee : UInt64}
    {spendPub : Blob pqAuthPubSize} {exNonce : Bytes} {tx : Transaction}
    (h : constructMinerTxPq P height medianSize coins size fee spendPub exNonce = some tx) :
    getPqMinerSpendPubFromExtra tx.extra = some spendPub := by
  have halone : getPqMinerSpendPubFromExtra (txExtraTagPqMinerSpendPub :: spendPub.val) = some spendPub := by
    have hparse : getPqMinerSpendPubFromExtra (txExtraTagPqMinerSpendPub :: (spendPub.val ++ [])) = some spendPub :=
      minerKey_of_parse (by simp [parseFields])
    rwa [append_nil] at hparse
  unfold constructMinerTxPq at h
  split at h
  · cases h
  cases h
  simp only [addPqMinerSpendPubToExtra, addExtraNonceToTransactionExtra, nil_append]
  split_ifs with hempty hlong
  · exact halone
  · rw [cons_append]
    apply minerKey_of_parse
    rw [length_append, length_cons, ← Nat.add_assoc, parseFields, readField_nonce (by omega)]
    cases spendPub.val.length + (UInt8.ofNat exNonce.length :: exNonce).length <;> rfl
  · exact halone

theorem getBlockTemplatePq_key {N : NodeEnv} {s : Node} {spendPub : Blob pqAuthPubSize} {exNonce : Bytes} {b : Block}
    {diffic : UInt64} (h : (s.getBlockTemplatePq N spendPub exNonce).1 = some (b, diffic)) :
    minerKeyOf b = some spendPub := by
  unfold Node.getBlockTemplatePq at h
  dsimp only at h
  split at h
  · cases h
  split at h
  · cases h
  rename_i hashes base s' hselect
  obtain ⟨_, _, -, -, -, -, -, _, hbase, -⟩ := selectTemplate_some hselect
  cases h
  exact constructMinerTxPq_key hbase

section Invariant
variable {M : MinerEnv} {m m' : Miner} {w : Worker}

theorem requestBlockTemplate_cases {node : Node} {random : UInt32} {ok : Bool}
    (h : m.requestBlockTemplate M node random = (ok, m')) :
    ok = false ∧ m' = m ∨
      ok = true ∧ ∃ bl di, minerKeyOf bl = some m.pqSpendPub ∧ m' = m.setBlockTemplate bl di random := by
  unfold Miner.requestBlockTemplate at h
  dsimp only at h
  split at h
  · cases h
    exact .inl ⟨rfl, rfl⟩
  split at h
  · cases h
    exact .inl ⟨rfl, rfl⟩
  · rename_i bl di htemplate
    cases h
    exact .inr ⟨rfl, bl, di, getBlockTemplatePq_key htemplate, rfl⟩

/-! ## The invariant -/

/-- A worker of a running miner: what it works on pays the resident key, and what it is about
to submit is signed. Only `pqKeysSet` and `pqSpendPub` are read of the miner. -/
structure WorkerOk (M : MinerEnv) (m : Miner) (w : Worker) : Prop where
  block : m.pqKeysSet = true → (w.localTemplateVer ≠ 0 ∨ w.pc ≠ .top) → minerKeyOf w.b = some m.pqSpendPub
  proving : w.pc = .proving → m.pqKeysSet = true
  proved : ∀ pow, w.pc = .proved pow → SelfSigned M w.b

theorem WorkerOk.frame (h : WorkerOk M m w) (hset : m'.pqKeysSet = m.pqKeysSet) (hpub : m'.pqSpendPub = m.pqSpendPub) :
    WorkerOk M m' w :=
  ⟨by rw [hset, hpub]; exact h.block, by rw [hset]; exact h.proving, h.proved⟩

/-- The keys match, and the template pays them as soon as a worker can see it. Nothing is said
about the workers of a stopped miner: they cannot submit, and `start` waits for them. -/
structure MinerOk (M : MinerEnv) (m : Miner) : Prop where
  signs : m.pqKeysSet = true → ∀ msg sig, M.dsaSign m.pqSpendSk msg = some sig →
    M.pow.dsaVerify m.pqSpendPub msg sig = true
  template : m.pqKeysSet = true → m.templateNo ≠ 0 ∨ m.stop = false → minerKeyOf m.template = some m.pqSpendPub
  workers : m.stop = false → ∀ w ∈ m.threads, WorkerOk M m w
  found : ∀ b ∈ m.found, SelfSigned M b

theorem MinerOk.new (M : MinerEnv) : MinerOk M .new where
  signs := by rintro ⟨⟩
  template := by rintro ⟨⟩
  workers := by rintro ⟨⟩
  found := by rintro b ⟨⟩

/-- A miner without keys, and without running workers. -/
theorem MinerOk.clearPqKeys (h : MinerOk M m) (hidle : m.stop = true ∨ m.threads = []) : MinerOk M m.clearPqKeys where
  signs := by rintro ⟨⟩
  template := by rintro ⟨⟩
  workers := by
    intro hstop w hw
    rcases hidle with hidle | hidle
    · cases hidle.symm.trans hstop
    · rw [show m.clearPqKeys.threads = m.threads from rfl, hidle] at hw
      cases hw
  found := h.found

theorem MinerOk.requested (h : MinerOk M m) {node : Node} {random : UInt32} {ok : Bool}
    (hreq : m.requestBlockTemplate M node random = (ok, m')) : MinerOk M m' := by
  rcases requestBlockTemplate_cases hreq with ⟨-, rfl⟩ | ⟨-, bl, di, hkey, rfl⟩
  · exact h
  · exact { signs := h.signs
            template := fun _ _ => hkey
            workers := fun hstop w hw => (h.workers hstop w hw).frame rfl rfl
            found := h.found }

/-- A stopped miner with the keys of an identity that its template, if there is one, pays. -/
theorem MinerOk.setPqKeys (h : MinerOk M m) (hstop : m.stop = true) (id : MinerIdentity M)
    (hpays : m.templateNo = 0 ∨ minerKeyOf m.template = some id.spendPub) : MinerOk M (m.setPqKeys id) where
  signs := fun _ => id.signs
  template := by
    rintro - (hno | hrun)
    · exact hpays.resolve_left hno
    · cases hstop.symm.trans hrun
  workers := by
    intro hrun
    cases hstop.symm.trans hrun
  found := h.found

theorem WorkerOk.new (M : MinerEnv) (m m' : Miner) (i : Nat) : WorkerOk M m (Worker.new m' i) where
  block := by
    rintro - (hver | hpc)
    · exact absurd rfl hver
    · exact absurd rfl hpc
  proving := by rintro ⟨⟩
  proved := by rintro _ ⟨⟩

/-- The workers are set going on a template that pays the keys. -/
theorem MinerOk.running (h : MinerOk M m) (hkey : m.pqKeysSet = true → minerKeyOf m.template = some m.pqSpendPub)
    (n : Nat) (m₀ : Miner) :
    MinerOk M { m with doMining := true, stop := false, pausersCount := 0, threads := (List.range n).map (Worker.new m₀) } where
  signs := h.signs
  template := fun hset _ => hkey hset
  workers := by
    intro _ w hw
    obtain ⟨i, -, rfl⟩ := List.mem_map.mp hw
    exact .new M _ m₀ i
  found := h.found

/-- The template is there and pays the keys, or the request has failed. -/
theorem MinerOk.ensureTemplate (h : MinerOk M m) {node : Node} {random : UInt32} {ok : Bool}
    (hens : m.ensureTemplate M node random = (ok, m')) :
    MinerOk M m' ∧ m'.stop = m.stop ∧
      (ok = true → m'.pqKeysSet = true → minerKeyOf m'.template = some m'.pqSpendPub) := by
  unfold Miner.ensureTemplate at hens
  split at hens
  · refine ⟨h.requested hens, ?_⟩
    rcases requestBlockTemplate_cases hens with ⟨rfl, rfl⟩ | ⟨-, bl, di, hkey, rfl⟩
    · exact ⟨rfl, by rintro ⟨⟩⟩
    · exact ⟨rfl, fun _ _ => hkey⟩
  · rename_i hno
    cases hens
    exact ⟨h, rfl, fun _ hset => h.template hset (.inl hno)⟩

/-- `start` fails on a stopped miner, or runs it. -/
theorem MinerOk.start (h : MinerOk M m) {n : Nat} {node : Node} {random random' : UInt32} {ok : Bool}
    (hstart : m.start M n node random random' = (ok, m')) :
    MinerOk M m' ∧ (m.stop = true → ok = false → m'.stop = true) := by
  unfold Miner.start at hstart
  split at hstart
  · cases hstart
    exact ⟨h, fun hstop _ => hstop⟩
  split at hstart
  · cases hstart
    exact ⟨h, fun hstop _ => hstop⟩
  have h₀ : MinerOk M { m with threadsTotal := UInt32.ofNat n, starterNonce := random } :=
    ⟨h.signs, h.template, fun hs w hw => (h.workers hs w hw).frame rfl rfl, h.found⟩
  dsimp only at hstart
  split at hstart
  · rename_i m₁ hens
    cases hstart
    obtain ⟨h₁, hstop₁, -⟩ := h₀.ensureTemplate hens
    exact ⟨h₁, fun hstop _ => hstop₁.trans hstop⟩
  · rename_i m₁ hens
    cases hstart
    obtain ⟨h₁, -, hkey⟩ := h₀.ensureTemplate hens
    exact ⟨h₁.running (hkey rfl) n m₁, by rintro - ⟨⟩⟩

theorem WorkerOk.candidate (hblock : m.pqKeysSet = true → w.localTemplateVer ≠ 0 → minerKeyOf w.b = some m.pqSpendPub) :
    WorkerOk M m w.candidate := by
  unfold Worker.candidate
  split
  · rename_i hver
    refine ⟨?_, ?_, ?_⟩
    · rintro - (h | h)
      · exact absurd hver h
      · exact absurd rfl h
    · rintro ⟨⟩
    · rintro _ ⟨⟩
  · rename_i hver
    exact ⟨fun hset _ => hblock hset hver, by rintro ⟨⟩, by rintro _ ⟨⟩⟩

theorem WorkerOk.next (h : WorkerOk M m w) : WorkerOk M m (w.next m) where
  block := by
    rintro hset (hver | hpc)
    · exact h.block hset (.inl hver)
    · exact absurd rfl hpc
  proving := by rintro ⟨⟩
  proved := by rintro _ ⟨⟩

/-- The signature of a candidate that pays the resident key. -/
theorem selfSigned_prove (h : MinerOk M m) (hset : m.pqKeysSet = true) {b : Block} (hkey : minerKeyOf b = some m.pqSpendPub)
    {blob : Bytes} (hblob : getBlockHashingBlob M.pow.toPrimitives b = some blob) {sig : Blob pqSignatureSize}
    {pow : Option Hash} (hprove : discretePowerProve M blob m.pqSpendSk = some (sig, pow)) :
    SelfSigned M { b with signature := sig.val } := by
  obtain ⟨sig', hsign, hpair⟩ := Option.map_eq_some_iff.mp hprove
  cases hpair
  -- the hashing blob does not cover the signature
  exact ⟨m.pqSpendPub, hkey, blob, sig, hblob, rfl, h.signs hset _ _ hsign⟩

/-- What a worker's step does outside: nothing, or it stops the miner, or submits a signed block. -/
inductive Stepped (M : MinerEnv) (m : Miner) : Miner × Worker → Prop where
  | kept {w : Worker} : (m.stop = false → WorkerOk M m w) → Stepped M m (m, w)
  | stopped (w : Worker) : Stepped M m ({ m with stop := true }, w)
  | submitted {w : Worker} {b : Block} (index : Nat) : WorkerOk M m w → SelfSigned M b →
      Stepped M m ({ m with found := m.found ++ [b], currentExtraMessageIndex := index }, w)

theorem WorkerOk.step (h : MinerOk M m) (hw : m.stop = false → WorkerOk M m w) (accepted : Bool) :
    Stepped M m (w.step M m accepted) := by
  have hb : w.pc ≠ .top → m.stop = false → m.pqKeysSet = true → minerKeyOf w.b = some m.pqSpendPub :=
    fun hpc hstop hset => (hw hstop).block hset (.inr hpc)
  unfold Worker.step
  split
  · split_ifs with hstop
    · exact .kept fun hno => absurd hstop (by simp [hno])
    · exact .kept hw
    · exact .kept fun hrun => ⟨fun hset _ => h.template hset (.inr hrun), by rintro ⟨⟩, by rintro _ ⟨⟩⟩
    · exact .kept fun hrun => .candidate fun hset hver => (hw hrun).block hset (.inl hver)
  · rename_i hpc
    exact .kept fun hrun => .candidate fun hset _ => hb (by rw [hpc]; rintro ⟨⟩) hrun hset
  · rename_i hpc
    split_ifs with hset hstop
    · exact .stopped _
    · exact .kept fun hno => absurd hstop (by simp [hno])
    · exact .kept fun hrun => ⟨fun hset _ => hb (by rw [hpc]; rintro ⟨⟩) hrun hset, fun _ => by simpa using hset,
        by rintro _ ⟨⟩⟩
  · rename_i hpc
    split
    · exact .stopped _
    · rename_i hblob
      split
      · exact .stopped _
      · exact .stopped _
      · rename_i hprove
        refine .kept fun hrun => ?_
        have hset := (hw hrun).proving hpc
        have hkey := hb (by rw [hpc]; rintro ⟨⟩) hrun hset
        exact ⟨fun _ _ => hkey, by rintro ⟨⟩, fun _ _ => selfSigned_prove h hset hkey hblob hprove⟩
  · rename_i pow hpc
    split
    · rename_i hfound
      have hrun : m.stop = false := by simpa using (Bool.and_eq_true_iff.mp hfound).1
      exact .submitted _ (hw hrun).next ((hw hrun).proved pow hpc)
    · exact .kept fun hrun => (hw hrun).next
  · exact .kept hw

theorem MinerOk.work (h : MinerOk M m) {i : Nat} {accepted : Bool} (hwork : m.work M i accepted = some m') :
    MinerOk M m' := by
  obtain ⟨w, hi, rfl⟩ := Option.map_eq_some_iff.mp hwork
  have hstep := WorkerOk.step h (fun hs => h.workers hs w (mem_of_getElem? hi)) accepted
  dsimp only
  generalize w.step M m accepted = r at hstep ⊢
  have hset : ∀ {w'}, (m.stop = false → WorkerOk M m w') → m.stop = false → ∀ w₁ ∈ m.threads.set i w', WorkerOk M m w₁ := by
    intro w' hw' hstop w₁ hw₁
    rcases mem_or_eq_of_mem_set hw₁ with hw₁ | rfl
    · exact h.workers hstop w₁ hw₁
    · exact hw' hstop
  cases hstep with
  | kept hw' => exact ⟨h.signs, h.template, fun hs w₁ hw₁ => (hset hw' hs w₁ hw₁).frame rfl rfl, h.found⟩
  | stopped =>
    exact ⟨h.signs, fun hs hno => h.template hs (.inl (hno.resolve_right (by rintro ⟨⟩))), by rintro ⟨⟩, h.found⟩
  | submitted index hw' hb =>
    refine ⟨h.signs, h.template, fun hs w₁ hw₁ => (hset (fun _ => hw') hs w₁ hw₁).frame rfl rfl, ?_⟩
    intro b hmem
    rcases mem_append.mp hmem with hmem | hmem
    · exact h.found b hmem
    · exact mem_singleton.mp hmem ▸ hb

/-! ## Runs -/

/-- Nobody calls `startPq` on a running miner, and a stopped one that holds a template is
started or armed only with the identity the template pays. -/
def SteadyIdentity (M : MinerEnv) (m : Miner) : MinerEvent M → Prop
  | .startPq id _ _ _ _ => m.stop = true ∧ (m.templateNo = 0 ∨ minerKeyOf m.template = some id.spendPub)
  | .startPqWhenSynchronized id _ => m.stop = true → m.templateNo = 0 ∨ minerKeyOf m.template = some id.spendPub
  | _ => True

instance (M : MinerEnv) (m : Miner) (e : MinerEvent M) : Decidable (SteadyIdentity M m e) := by
  cases e <;> unfold SteadyIdentity <;> infer_instance

theorem MinerOk.event (h : MinerOk M m) {e : MinerEvent M} (hg : SteadyIdentity M m e) (hstep : minerStep M m e = some m') :
    MinerOk M m' := by
  cases e with
  | startPq id n node r r' =>
    simp only [minerStep, Option.ite_none_left_eq_some, Option.some.injEq] at hstep
    obtain ⟨-, rfl⟩ := hstep
    obtain ⟨hstop, hpays⟩ := hg
    unfold Miner.startPq
    split
    · rename_i m₁ hstart
      obtain ⟨h₁, hidle⟩ := (h.setPqKeys hstop id hpays).start hstart
      exact h₁.clearPqKeys (.inl (hidle hstop rfl))
    · rename_i m₁ hstart
      exact ((h.setPqKeys hstop id hpays).start hstart).1
  | startPqWhenSynchronized id n =>
    simp only [minerStep, Option.ite_none_left_eq_some, Option.some.injEq] at hstep
    obtain ⟨-, rfl⟩ := hstep
    unfold Miner.startPqWhenSynchronized
    split
    · exact h
    · rename_i hidle
      have hstop : m.stop = true := by simpa [Miner.isMining] using hidle
      have hset := h.setPqKeys hstop id (hg hstop)
      exact ⟨hset.signs, hset.template, fun hrun => absurd (hstop.symm.trans hrun) (by decide), h.found⟩
  | stop keep =>
    simp only [minerStep, Option.ite_none_left_eq_some, Option.some.injEq] at hstep
    obtain ⟨-, rfl⟩ := hstep
    unfold Miner.sendStop
    generalize hm₀ : (if keep then m else { m with doMining := false } : Miner) = m₀
    have h₀ : MinerOk M m₀ := by
      subst hm₀
      split
      · exact h
      · exact ⟨h.signs, h.template, fun hs w hw => (h.workers hs w hw).frame rfl rfl, h.found⟩
    dsimp only
    split
    · rename_i hempty
      split
      · exact h₀
      · exact h₀.clearPqKeys (.inr (List.isEmpty_iff.mp hempty))
    · exact ⟨h₀.signs, fun hset hrun => h₀.template hset (.inl (hrun.resolve_right (by rintro ⟨⟩))), by rintro ⟨⟩, h₀.found⟩
  | join =>
    simp only [minerStep, Option.ite_none_right_eq_some, Option.map_eq_some_iff] at hstep
    obtain ⟨-, keep, -, rfl⟩ := hstep
    have h₀ : MinerOk M { m with threads := [], joining := none } :=
      ⟨h.signs, h.template, fun _ w hw => absurd hw not_mem_nil, h.found⟩
    unfold Miner.join
    dsimp only
    split
    · exact h₀
    · exact h₀.clearPqKeys (.inr rfl)
  | onSynchronized node r r' =>
    simp only [minerStep, Option.ite_none_left_eq_some, Option.some.injEq] at hstep
    obtain ⟨-, rfl⟩ := hstep
    unfold Miner.onSynchronized
    split
    · exact (h.start rfl).1
    · exact h
  | onBlockChainUpdate node r =>
    cases hstep
    unfold Miner.onBlockChainUpdate
    split
    · exact h.requested rfl
    · exact h
  | pause =>
    cases hstep
    exact ⟨h.signs, h.template, fun hs w hw => (h.workers hs w hw).frame rfl rfl, h.found⟩
  | resume =>
    cases hstep
    exact ⟨h.signs, h.template, fun hs w hw => (h.workers hs w hw).frame rfl rfl, h.found⟩
  | work i accepted => exact h.work hstep

theorem steady_ok (h : ((minerMachine M).lts (SteadyIdentity M)).Reachable m) : MinerOk M m := by
  refine (Machine.inductive_of_step ?_ ?_).reachable h
  · rintro _ rfl
    exact .new M
  · intro m e m' hm hg hstep
    exact hm.event hg hstep

/-- The miner holds the values that `clearPqKeys` leaves. -/
structure Miner.KeysCleared (m : Miner) : Prop where
  unset : m.pqKeysSet = false
  spendSk : m.pqSpendSk = zeroBlob _
  spendPub : m.pqSpendPub = zeroBlob _
  viewPub : m.pqViewPub = zeroBlob _

theorem clearPqKeys_eq_iff : m.clearPqKeys = m ↔ m.KeysCleared := by
  constructor
  · intro h
    rw [← h]
    exact ⟨rfl, rfl, rfl, rfl⟩
  · rintro ⟨hset, hsk, hpub, hview⟩
    unfold Miner.clearPqKeys
    rw [← hset, ← hsk, ← hpub, ← hview]

theorem startPq_refused (hrun : m.isMining = true) (id : MinerIdentity M) (n : Nat) (node : Node) (r r' : UInt32) :
    m.startPq M id n node r r' = (false, m.clearPqKeys) := by
  have hstart : (m.setPqKeys id).start M n node r r' = (false, m.setPqKeys id) := by
    unfold Miner.start
    exact if_pos hrun
  unfold Miner.startPq
  rw [hstart]
  rfl

/-- Under one identity, whatever a worker submits is signed by the key its coinbase names. A
call that is refused because the miner runs leaves it as it was exactly if its keys are
cleared already. -/
theorem miner_signs_template (M : MinerEnv) :
    (∀ m, ((minerMachine M).lts (SteadyIdentity M)).Reachable m → ∀ b ∈ m.found, SelfSigned M b) ∧
      ∀ (m : Miner) (id : MinerIdentity M) (n : Nat) (node : Node) (r r' : UInt32), m.isMining = true →
        (m.startPq M id n node r r').1 = false ∧ ((m.startPq M id n node r r').2 = m ↔ m.KeysCleared) := by
  refine ⟨fun m h => (steady_ok h).found, ?_⟩
  intro m id n node r r' hrun
  rw [startPq_refused hrun]
  exact ⟨rfl, clearPqKeys_eq_iff⟩

end Invariant

/-! ### Runs -/

/-- Signatures that carry the first byte of the key. -/
def keyedPow : PowPrimitives := { flatPow with dsaVerify := fun pk _ sig => pk.val.head? == sig.val.head? }

def keyedEnv : MinerEnv :=
  { powNode with
    prims := keyedPow.nodePrimitives
    pow := keyedPow
    pow_prims := rfl
    dsaSign := fun sk _ => some ⟨List.replicate pqSignatureSize (sk.val.headD 0), length_replicate⟩
    extraMessages := [] }

def keyedIdentity (a : UInt8) : MinerIdentity keyedEnv where
  viewPub := zeroBlob _
  spendPub := ⟨List.replicate pqAuthPubSize a, length_replicate⟩
  spendSk := ⟨List.replicate pqSpendSecretSize a, length_replicate⟩
  signs := by
    intro msg sig h
    obtain rfl := Option.some.inj h
    exact beq_self_eq_true (some a)

/-- One thread is started for `a`. -/
def keyedStart (a : UInt8) : MinerEvent keyedEnv := .startPq (keyedIdentity a) 1 flatStart 0 0

/-- The thread takes the template, signs it and submits it. -/
def keyedTurn : List (MinerEvent keyedEnv) := List.replicate 5 (.work 0 true)

def keyedRun (events : List (MinerEvent keyedEnv)) : Option Miner := (minerMachine keyedEnv).run .new events

theorem keyedRun_reachable {events : List (MinerEvent keyedEnv)} {m : Miner} (h : keyedRun events = some m) :
    ((minerMachine keyedEnv).lts Machine.anyEvent).Reachable m :=
  Machine.run_reachable (.init rfl) h

/-- The miner of 1 is stopped and started again for 2: the next block pays 1 and is signed by
2. A start for 2 while 1 mines is refused, and 1 is left without keys. -/
theorem restart_signs_stale :
    (∃ m, ((minerMachine keyedEnv).lts Machine.anyEvent).Reachable m ∧ ∃ b ∈ m.found,
      minerKeyOf b = some (keyedIdentity 1).spendPub ∧ ¬ MinedBy keyedPow b (keyedIdentity 1).spendPub) ∧
    ∃ m, ((minerMachine keyedEnv).lts Machine.anyEvent).Reachable m ∧ m.isMining = true ∧ m.pqKeysSet = true ∧
      (m.startPq keyedEnv (keyedIdentity 2) 1 flatStart 0 0).1 = false ∧
      (m.startPq keyedEnv (keyedIdentity 2) 1 flatStart 0 0).2.pqKeysSet = false := by
  obtain ⟨m, hrun, hp⟩ := (Option.any_eq_true _ _).mp (show
    (keyedRun ([keyedStart 1, .stop false, .work 0 true, .join, keyedStart 2] ++ keyedTurn)).any (fun m =>
      m.found.any fun b => decide (minerKeyOf b = some (keyedIdentity 1).spendPub ∧
        ¬ MinedBy keyedPow b (keyedIdentity 1).spendPub)) = true by decide +kernel)
  obtain ⟨b, hb, hbad⟩ := List.any_eq_true.mp hp
  obtain ⟨m', hrun', hp'⟩ := (Option.any_eq_true _ _).mp (show
    (keyedRun [keyedStart 1]).any (fun m => decide (m.isMining = true ∧ m.pqKeysSet = true)) = true by decide +kernel)
  obtain ⟨hmining, hset⟩ := of_decide_eq_true hp'
  refine ⟨⟨m, keyedRun_reachable hrun, b, hb, of_decide_eq_true hbad⟩, m', keyedRun_reachable hrun', hmining, hset, ?_⟩
  rw [startPq_refused hmining]
  exact ⟨rfl, rfl⟩

/-- A pause and a resume under one identity: two blocks, both signed by the key they pay. The
refused call is one on a miner that was left running without threads or keys. -/
theorem miner_signs_template_keyed :
    (∃ m, ((minerMachine keyedEnv).lts (SteadyIdentity keyedEnv)).Reachable m ∧ m.found.length = 2 ∧
      ∀ b ∈ m.found, SelfSigned keyedEnv b) ∧
    ∃ m, ((minerMachine keyedEnv).lts Machine.anyEvent).Reachable m ∧ m.isMining = true ∧
      (m.startPq keyedEnv (keyedIdentity 1) 1 flatStart 0 0).2 = m := by
  obtain ⟨m, hrun, hlen⟩ := (Option.any_eq_true _ _).mp (show
    ((minerMachine keyedEnv).runIf (fun m e => decide (SteadyIdentity keyedEnv m e)) .new
      ([keyedStart 1] ++ keyedTurn ++ [.stop true, .work 0 true, .join, .onSynchronized flatStart 0 0] ++ keyedTurn)).any
        (fun m => decide (m.found.length = 2)) = true by decide +kernel)
  have hreach : ((minerMachine keyedEnv).lts (SteadyIdentity keyedEnv)).Reachable m :=
    Machine.runIf_reachable (fun _ _ hg => of_decide_eq_true hg) (.init rfl) hrun
  obtain ⟨m', hrun', hp'⟩ := (Option.any_eq_true _ _).mp (show
    (keyedRun [.startPq (keyedIdentity 1) 0 flatStart 0 0, .stop false]).any (fun m => decide (m.isMining = true ∧
      m.pqKeysSet = false ∧ m.pqSpendSk = zeroBlob _ ∧ m.pqSpendPub = zeroBlob _ ∧ m.pqViewPub = zeroBlob _)) = true
      by decide +kernel)
  obtain ⟨hmining, hset, hsk, hpub, hview⟩ := of_decide_eq_true hp'
  refine ⟨⟨m, hreach, of_decide_eq_true hlen, (miner_signs_template keyedEnv).1 m hreach⟩, m',
    keyedRun_reachable hrun', hmining, ?_⟩
  exact ((miner_signs_template keyedEnv).2 m' _ 1 flatStart 0 0 hmining).2.mpr ⟨hset, hsk, hpub, hview⟩

end Discrete.L4
