import Discrete.L3Ledger.Chain

/-!
# Links and work of the main chain

The records of a chain that pushes have built name each other: the hash table is the
inverse of the records, every block names the one below it, and its cumulative
difficulty is that of the block below plus what the retarget asks of the blocks below.

* `Built.linked`: all of this for the block at any height.
* `getDifficultyForNextBlock_of_main`: what the retarget reads on top of a main-chain block.
* `difficultyWalk_take`: what it reads when it follows hash links instead.
-/
namespace Discrete.L3
open List L1 L2

/-! ## What the retarget reads -/

/-- Timestamp and cumulative difficulty, all that the retarget knows of a block. -/
def DbBlockMeta.work (e : DbBlockMeta) : UInt64 × UInt64 := (e.timestamp, e.cumulativeDifficulty)

/-- The blocks below `height`, youngest first. -/
def Db.workBefore (db : Db) (height : Nat) : List (UInt64 × UInt64) :=
  ((db.metas.take height).map DbBlockMeta.work).reverse

/-- The id of the block below `height`. -/
def Db.idBefore (db : Db) : Nat → Hash
  | 0 => nullHash
  | height + 1 => db.getBlockIdByHeight height

/-- The cumulative difficulty of the youngest block. -/
def tipWork (l : List (UInt64 × UInt64)) : UInt64 := (l.head?.map Prod.snd).getD 0

/-- How many blocks the retarget reads while the main chain has `chainHeight` blocks. -/
def sampleSize (chainHeight : Nat) : Nat := min (max (chainHeight - 1) 1) (difficultyWindow + 1)

/-- The retarget over the `n` youngest blocks. -/
def sampleDifficulty (testnet : Bool) (n : Nat) (l : List (UInt64 × UInt64)) : UInt64 :=
  nextDifficulty testnet ((l.take n).reverse.map Prod.fst) ((l.take n).reverse.map Prod.snd)

/-- What is asked of the next block when `l` is the main chain. -/
def requiredDifficulty (testnet : Bool) (l : List (UInt64 × UInt64)) : UInt64 :=
  sampleDifficulty testnet (sampleSize l.length) l

theorem sampleDifficulty_take (testnet : Bool) {n m : Nat} {l : List (UInt64 × UInt64)}
    (h : min n l.length = min m l.length) : sampleDifficulty testnet n l = sampleDifficulty testnet m l := by
  have htake : l.take n = l.take m := by
    rw [take_eq_take_min, h, ← take_eq_take_min]
  rw [sampleDifficulty, htake, sampleDifficulty]

@[simp] theorem length_workBefore (db : Db) (height : Nat) :
    (db.workBefore height).length = min height db.getChainHeight := by
  simp [Db.workBefore, Db.getChainHeight]

/-- The sample size, as the source computes it. -/
theorem sampleSize_eq (chainHeight : Nat) :
    min (max (if chainHeight > 0 then chainHeight - 1 else 1) 1) (difficultyWindow + 1) = sampleSize chainHeight := by
  unfold sampleSize
  split
  · rfl
  · rename_i h
    rw [Nat.eq_zero_of_not_pos h]
    rfl

/-- The records of the sample below `height + 1`, which the fast path reads by height. -/
theorem getBlockMetaRange_work {db : Db} {height : Nat} (hlt : height < db.getChainHeight) (n : Nat) :
    (db.getBlockMetaRange (height + 1 - n) height).map DbBlockMeta.work =
      ((db.workBefore (height + 1)).take n).reverse := by
  have hlen : ((db.metas.take (height + 1)).map DbBlockMeta.work).length = height + 1 := by
    rw [Db.getChainHeight] at hlt
    simp
    omega
  rw [Db.workBefore, take_reverse, reverse_reverse, hlen, ← map_drop, drop_take, Db.getBlockMetaRange]

variable {alt : Hash → Option BlockEntry}

theorem getDifficultyForNextBlock_of_main {E : Env} {db : Db} {p : Hash} {height : Nat}
    (hp : p ≠ nullHash) (hheight : db.hashHeight p = some height) (hlt : height < db.getChainHeight) :
    getDifficultyForNextBlock E db alt p =
      sampleDifficulty E.currency.testnet (sampleSize db.getChainHeight) (db.workBefore (height + 1)) := by
  have hrange := getBlockMetaRange_work hlt (sampleSize db.getChainHeight)
  unfold getDifficultyForNextBlock
  rw [if_neg hp]
  simp only [hheight, sampleSize_eq, sampleDifficulty]
  rw [← hrange, List.map_map, List.map_map]
  rfl

/-! ## Following the links -/

/-- What is recorded of a block, on the main chain or among the alternatives. -/
structure Records (db : Db) (alt : Hash → Option BlockEntry) (h prev : Hash) (work : UInt64 × UInt64) : Prop where
  stored : ∀ e ∈ alt h, e.bl.previousBlockHash = prev ∧ (e.bl.timestamp, e.cumulativeDifficulty) = work
  main : ∀ k ∈ db.hashHeight h, (db.getBlockMeta k).prevHash = prev ∧ (db.getBlockMeta k).work = work

instance (db : Db) (alt : Hash → Option BlockEntry) (h prev : Hash) (work : UInt64 × UInt64) :
    Decidable (Records db alt h prev work) :=
  decidable_of_iff
    ((∀ e ∈ alt h, e.bl.previousBlockHash = prev ∧ (e.bl.timestamp, e.cumulativeDifficulty) = work) ∧
      ∀ k ∈ db.hashHeight h, (db.getBlockMeta k).prevHash = prev ∧ (db.getBlockMeta k).work = work)
    ⟨fun ⟨hstored, hmain⟩ => ⟨hstored, hmain⟩, fun h => ⟨h.stored, h.main⟩⟩

/-- A walk along the links reads the youngest `n` blocks of an ancestry: `R` relates a
hash to its block's ancestry. -/
theorem difficultyWalk_take {db : Db} {R : Hash → List (UInt64 × UInt64) → Prop} (hnull : ∀ l, R nullHash l → l = [])
    (hstep : ∀ h l, h ≠ nullHash → R h l → ∃ prev work l', l = work :: l' ∧ R prev l' ∧ Records db alt h prev work) :
    ∀ (n : Nat) {h : Hash} {l back : List (UInt64 × UInt64)}, R h l → difficultyWalk db alt n h = some back →
      back = l.take n
  | 0, h, l, back, _, hwalk => by
    rw [difficultyWalk, Option.some.injEq] at hwalk
    rw [← hwalk, take_zero]
  | n + 1, h, l, back, hR, hwalk => by
    rw [difficultyWalk] at hwalk
    split at hwalk
    · rename_i hh
      rw [hh] at hR
      rw [Option.some.injEq] at hwalk
      rw [← hwalk, hnull l hR, take_nil]
    rename_i hh
    obtain ⟨prev, work, l', rfl, hR', hrecords⟩ := hstep h l hh hR
    split at hwalk
    · rename_i e he
      obtain ⟨rfl, rfl⟩ := hrecords.stored e he
      obtain ⟨back', hback', rfl⟩ := Option.map_eq_some_iff.mp hwalk
      rw [difficultyWalk_take hnull hstep n hR' hback', take_succ_cons]
    · split at hwalk
      · cases hwalk
      · rename_i k hk
        obtain ⟨rfl, rfl⟩ := hrecords.main k hk
        obtain ⟨back', hback', rfl⟩ := Option.map_eq_some_iff.mp hwalk
        rw [difficultyWalk_take hnull hstep n hR' hback', take_succ_cons]
        rfl

/-- A walk among blocks whose parents are known comes to an end. -/
theorem difficultyWalk_isSome {db : Db} {C : Hash → Prop}
    (hclosed : ∀ h, C h → h ≠ nullHash → (∃ e, alt h = some e ∧ C e.bl.previousBlockHash) ∨
      alt h = none ∧ ∃ k, db.hashHeight h = some k ∧ C (db.getBlockMeta k).prevHash) :
    ∀ (n : Nat) {h : Hash}, C h → (difficultyWalk db alt n h).isSome
  | 0, _, _ => rfl
  | n + 1, h, hC => by
    rw [difficultyWalk]
    split
    · rfl
    rename_i hh
    rcases hclosed h hC hh with ⟨e, he, hprev⟩ | ⟨hnone, k, hk, hprev⟩
    · simp only [he, Option.isSome_map]
      exact difficultyWalk_isSome hclosed n hprev
    · simp only [hnone, hk, Option.isSome_map]
      exact difficultyWalk_isSome hclosed n hprev

/-- A difficulty that is not zero comes from a walk that ended. -/
theorem difficultyWalk_of_ne_zero {E : Env} {db : Db} {p : Hash}
    (hne : getDifficultyForNextBlock E db alt p ≠ 0) (hnull : p ≠ nullHash) (hnone : db.hashHeight p = none) :
    (difficultyWalk db alt (sampleSize db.getChainHeight) p).isSome := by
  unfold getDifficultyForNextBlock at hne
  rw [if_neg hnull] at hne
  simp only [hnone, sampleSize_eq] at hne
  split at hne
  · exact absurd rfl hne
  · rename_i back hback
    rw [hback]
    rfl

/-! ## The records of a built chain -/

section Built
variable {E : Env} {clock : Nat} {blocks : List StoredBlock} {db : Db}

variable (h : Built E clock blocks db)
include h

theorem Built.metas : db.metas = blocks.map StoredBlock.entry := by
  induction h with
  | genesis _ hp => rw [hp.written, writeStored_metas]; rfl
  | push _ hp ih => rw [hp.written, writeStored_metas, ih, map_append]; rfl

theorem Built.storedBlock (k : Nat) : db.storedBlock k = blocks[k]? := by
  have hwrite : ∀ (d : Db) (l : List StoredBlock) (sb : StoredBlock), sb.Sized → d.getChainHeight = l.length →
      (∀ k, d.storedBlock k = l[k]?) → ∀ k, (writeStored E.P d sb).storedBlock k = (l ++ [sb])[k]? := by
    intro d l sb hs hlen hd k
    rcases Nat.lt_trichotomy k l.length with hk | rfl | hk
    · rw [storedBlock_writeStored_lt (by omega), hd, getElem?_append_left hk]
    · rw [← hlen, storedBlock_writeStored_last hs, hlen, getElem?_concat_length]
    · rw [getElem?_eq_none (by simp; omega), Db.storedBlock, writeStored_metas,
        getElem?_eq_none (by rw [Db.getChainHeight] at hlen; simp; omega)]
  induction h generalizing k with
  | genesis _ hp =>
    rw [hp.written]
    exact hwrite .empty [] _ hp.undoable.sized rfl (fun _ => rfl) k
  | push hb hp ih =>
    rw [hp.written]
    exact hwrite _ _ _ hp.undoable.sized hb.length ih k

variable {k : Nat}

/-- The hash table is the inverse of the records. -/
theorem Built.hashHeight {id : Hash} : db.hashHeight id = some k ↔ ∃ sb, blocks[k]? = some sb ∧ sb.entry.hash = id := by
  have hwrite : ∀ (d : Db) (l : List StoredBlock) (sb : StoredBlock), d.getChainHeight = l.length →
      d.hashHeight sb.entry.hash = none →
      (∀ {id k}, d.hashHeight id = some k ↔ ∃ sb, l[k]? = some sb ∧ sb.entry.hash = id) →
      ∀ {id k}, (writeStored E.P d sb).hashHeight id = some k ↔
        ∃ sb', (l ++ [sb])[k]? = some sb' ∧ sb'.entry.hash = id := by
    intro d l sb hlen hnew hd id k
    rw [writeStored_hashHeight, Table.put_apply]
    rcases Nat.lt_trichotomy k l.length with hk | rfl | hk
    · rw [getElem?_append_left hk]
      split
      · rename_i hid
        subst hid
        constructor
        · intro he
          have := Option.some.inj he
          omega
        · intro hex
          rw [hd.mpr hex] at hnew
          cases hnew
      · exact hd
    · rw [getElem?_concat_length, hlen]
      split
      · rename_i hid
        subst hid
        simp
      · rename_i hid
        constructor
        · intro he
          obtain ⟨sb', hget, -⟩ := hd.mp he
          rw [getElem?_eq_none (le_refl _)] at hget
          cases hget
        · intro ⟨sb', hget, hhash⟩
          cases hget
          exact absurd hhash.symm hid
    · rw [getElem?_eq_none (by simp; omega)]
      simp only [reduceCtorEq, false_and, exists_false, iff_false]
      split
      · intro he
        have := Option.some.inj he
        omega
      · intro he
        obtain ⟨sb', hget, -⟩ := hd.mp he
        rw [getElem?_eq_none (by omega)] at hget
        cases hget
  induction h generalizing id k with
  | genesis _ hp =>
    rw [hp.written]
    exact hwrite .empty [] _ rfl rfl (by simp [Db.empty])
  | push hb hp ih =>
    rw [hp.written]
    exact hwrite _ _ _ hb.length hp.undoable.hash fun {_ _} => ih

omit h in
/-- What is left after removing `n` blocks. -/
theorem Built.removeBlocks {E : Env} {clock : Nat} {blocks : List StoredBlock} {db : Db} : Built E clock blocks db →
    ∀ (n : Nat), n < db.getChainHeight →
    Built E clock (blocks.take (blocks.length - n)) ((L3.removeLastBlock E.P)^[n] db)
  | h, 0, _ => by
    rw [Nat.sub_zero, take_length]
    exact h
  | h, n + 1, hn => by
    have hlen := h.length
    obtain ⟨blocks', sb, rfl, hb', -⟩ := h.removeLastBlock (by omega)
    have hlen' := hb'.length
    rw [length_append, length_singleton] at hlen ⊢
    have hrec := Built.removeBlocks hb' n (by omega)
    rw [Function.iterate_succ_apply, Nat.add_sub_add_right, take_append_of_le_length (by omega)]
    exact hrec

variable {sb : StoredBlock}

theorem Built.getBlockMeta (hsb : blocks[k]? = some sb) : db.getBlockMeta k = sb.entry := by
  rw [Db.getBlockMeta, h.metas, getElem?_map, hsb]
  rfl

theorem Built.getBlockIdByHeight (hsb : blocks[k]? = some sb) : db.getBlockIdByHeight k = sb.entry.hash := by
  rw [Db.getBlockIdByHeight, h.metas, getElem?_map, hsb]
  rfl

theorem Built.getTailId : db.getTailId = db.idBefore db.getChainHeight := by
  have hpos := h.pos
  obtain ⟨n, hn⟩ : ∃ n, db.getChainHeight = n + 1 := ⟨db.getChainHeight - 1, by omega⟩
  rw [hn, Db.idBefore, Db.getTailId, Db.getBlockIdByHeight, getLast?_eq_getElem?]
  rw [Db.getChainHeight] at hn
  rw [hn, Nat.add_sub_cancel]

/-- The tail is the last block. -/
theorem Built.tail_height (hk : db.hashHeight db.getTailId = some k) : k + 1 = db.getChainHeight := by
  have hpos := h.pos
  have hlen := h.length
  obtain ⟨n, hn⟩ : ∃ n, db.getChainHeight = n + 1 := ⟨db.getChainHeight - 1, by omega⟩
  obtain ⟨sb, hsb⟩ : ∃ sb, blocks[n]? = some sb := ⟨_, getElem?_eq_getElem (by omega)⟩
  have hid : sb.entry.hash = db.getTailId := by
    rw [h.getTailId, hn, Db.idBefore, h.getBlockIdByHeight hsb]
  rw [h.hashHeight.mpr ⟨sb, hsb, hid⟩, Option.some.injEq] at hk
  omega

/-! ## Links -/

omit h

/-- How the block at `height` sits on the blocks below it. -/
structure Linked (E : Env) (db : Db) (height : Nat) (sb : StoredBlock) : Prop where
  hash : sb.entry.hash = E.prims.getBlockHash sb.block
  timestamp : sb.entry.timestamp = sb.block.timestamp
  index : getBlockHeight sb.block = height
  version : checkBlockVersion sb.block = true
  previous : sb.block.previousBlockHash = db.idBefore height
  prevHash : sb.entry.prevHash = db.idBefore height
  cumulativeDifficulty : sb.entry.cumulativeDifficulty = tipWork (db.workBefore height) +
    if db.idBefore height = nullHash then 1 else requiredDifficulty E.currency.testnet (db.workBefore height)

theorem workBefore_writeStored {height : Nat} (hle : height ≤ db.getChainHeight) (sb : StoredBlock) :
    (writeStored E.P db sb).workBefore height = db.workBefore height := by
  rw [Db.workBefore, writeStored_metas, take_append_of_le_length hle]
  rfl

/-- Writing a block changes nothing below it. -/
theorem Linked.write {height : Nat} {sb' : StoredBlock} (h : Linked E db height sb) (hle : height ≤ db.getChainHeight) :
    Linked E (writeStored E.P db sb') height sb := by
  have hid : (writeStored E.P db sb').idBefore height = db.idBefore height := by
    cases height with
    | zero => rfl
    | succ k =>
      rw [Db.idBefore, Db.idBefore, Db.getBlockIdByHeight, writeStored_metas, getElem?_append_left hle]
      rfl
  have hwork := workBefore_writeStored hle (E := E) sb'
  obtain ⟨h1, h2, h3, h4, h5, h6, h7⟩ := h
  refine ⟨h1, h2, h3, h4, ?_, ?_, ?_⟩
  · rw [hid, h5]
  · rw [hid, h6]
  · rw [hid, hwork, h7]

theorem checkBlockHeader_version {now : Nat} {alt : Hash → Option BlockEntry} {b : Block} {id : Hash}
    {difficulty : UInt64} (h : checkBlockHeader E now alt db b id = .ok difficulty) :
    checkBlockVersion b = true ∧ difficulty = getDifficultyForNextBlock E db alt b.previousBlockHash ∧
      difficulty ≠ 0 := by
  unfold checkBlockHeader at h
  split at h; · cases h
  split at h; · cases h
  rename_i hversion
  split at h; · cases h
  split at h; · cases h
  split at h; · cases h
  dsimp only at h
  split at h; · cases h
  rename_i hne
  cases h
  exact ⟨by simpa using hversion, rfl, hne⟩

theorem workBefore_succ {n : Nat} {e : DbBlockMeta} (h : db.metas[n]? = some e) :
    db.workBefore (n + 1) = e.work :: db.workBefore n := by
  rw [Db.workBefore, take_add_one, h, Option.toList_some, map_append, reverse_append]
  rfl

theorem tipWork_workBefore {n : Nat} (hn : db.getChainHeight = n + 1) :
    tipWork (db.workBefore (n + 1)) = (db.getBlockMeta n).cumulativeDifficulty := by
  rw [Db.getChainHeight] at hn
  have hlast : db.metas.take (n + 1) = db.metas := take_of_length_le (by omega)
  rw [tipWork, Db.workBefore, hlast, head?_reverse, getLast?_map, Db.getBlockMeta,
    getLast?_eq_getElem?, hn, Nat.add_sub_cancel, getElem?_eq_getElem (by omega)]
  rfl

/-- The new block is linked to the chain it is pushed onto. -/
theorem Pushed.linked {db' : Db} (h : Pushed E clock db sb db') (hdb : db = .empty ∨ Built E clock blocks db) :
    Linked E db db.getChainHeight sb := by
  obtain ⟨now, alt, pre, s, difficulty, reward, emission, hok, hentry, -⟩ := h.ok
  obtain ⟨-, hprev, -⟩ := checkBlockHeader_ok hok.header
  obtain ⟨hversion, hdiff, -⟩ := checkBlockHeader_version hok.header
  have hheight := (MinerTx.of_true hok.miner).getBlockHeight
  rcases hdb with rfl | hb
  · refine ⟨h.id, h.timestamp, hheight, hversion, hprev, ?_, ?_⟩
    · rw [hentry]
      rfl
    · rw [hentry, hdiff, hprev]
      rfl
  · have hpos := hb.pos
    have htail := hb.getTailId
    refine ⟨h.id, h.timestamp, hheight, hversion, hprev.trans htail, ?_, ?_⟩
    · rw [hentry, blockEntry]
      simp only [if_pos hpos]
      exact hprev.trans htail
    · obtain ⟨n, hn⟩ : ∃ n, db.getChainHeight = n + 1 := ⟨db.getChainHeight - 1, by omega⟩
      obtain ⟨k, hk⟩ := Option.isSome_iff_exists.mp hb.tail
      have hkn : k = n := by
        have := hb.tail_height hk
        omega
      subst hkn
      rw [hentry, blockEntry]
      simp only [if_pos hpos]
      rw [hdiff, hprev, UInt64.add_comm, hn, Nat.add_sub_cancel, tipWork_workBefore hn, ← hn, ← htail, hn]
      congr 1
      split
      · rename_i hnull
        rw [getDifficultyForNextBlock, if_pos hnull]
      · rename_i hnull
        rw [getDifficultyForNextBlock_of_main hnull hk (by omega), requiredDifficulty, length_workBefore, hn,
          Nat.min_self]

include h in
theorem Built.linked : ∀ {k : Nat} {sb : StoredBlock}, blocks[k]? = some sb →
    Linked E db k sb := by
  induction h with
  | @genesis sb₀ db₀ _ hp =>
    intro k sb hsb
    have hk : k = 0 := by
      have := (List.getElem?_eq_some_iff.mp hsb).1
      simpa using this
    subst hk
    cases hsb
    rw [hp.written]
    have hempty : Db.empty = .empty ∨ Built E clock [] .empty := .inl rfl
    exact (hp.linked hempty).write (Nat.zero_le _)
  | @push blocks₀ db₀ db₁ sb₁ hb hp ih =>
    intro k sb hsb
    have hlen := hb.length
    rw [hp.written]
    by_cases hk : k < blocks₀.length
    · rw [getElem?_append_left hk] at hsb
      exact (ih hsb).write (by omega)
    · have hlt := (List.getElem?_eq_some_iff.mp hsb).1
      rw [length_append, length_singleton] at hlt
      have hkl : k = blocks₀.length := by omega
      subst hkl
      rw [getElem?_concat_length] at hsb
      cases hsb
      rw [← hlen]
      exact (hp.linked (.inr hb)).write (le_refl _)

end Built

end Discrete.L3
