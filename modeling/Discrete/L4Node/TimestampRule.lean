import Discrete.L4Node.Finality

/-!
# The median-timestamp rule on the main chain and off it (`Blockchain.cpp`)

A block on the tip is checked against the median of the last `timestampCheckWindow`
blocks, read in one range. A block of a branch is checked against the timestamps of the
stored blocks it follows, all of them, completed from the main chain by a backward loop.
`ancestorTimestamps` is the one list both read from, oldest first.

* `completeTimestampsVector_reverse`: which of them the backward loop ends with. It
  stops before genesis unless it starts there.
* `timestamp_verdicts_iff`: the two verdicts are the same except where that loop leaves
  genesis out of a chain exactly as long as the window, and where a branch of more
  stored blocks than the window is judged by the median of the whole branch.
-/
namespace Discrete.L4
open List L1 L2 L3

/-! ## The median does not see the order -/

theorem medianValue_perm {v w : List UInt64} (h : v.Perm w) : medianValue v = medianValue w := by
  have hle : Std.Antisymm fun a b : UInt64 => a ≤ b := ⟨fun _ _ => UInt64.le_antisymm⟩
  have htotal : Std.Total fun a b : UInt64 => a ≤ b := ⟨UInt64.le_total⟩
  have htrans : IsTrans UInt64 fun a b => a ≤ b := ⟨fun _ _ _ => UInt64.le_trans⟩
  have hsort : v.insertionSort (· ≤ ·) = w.insertionSort (· ≤ ·) :=
    List.Perm.eq_of_pairwise' (pairwise_insertionSort _ v) (pairwise_insertionSort _ w)
      (((perm_insertionSort _ v).trans h).trans (perm_insertionSort _ w).symm)
  simp only [medianValue, hsort, h.length_eq]

theorem checkBlockTimestamp_reverse (timestamps : List UInt64) (b : Block) :
    checkBlockTimestamp timestamps.reverse b = checkBlockTimestamp timestamps b := by
  simp only [checkBlockTimestamp, length_reverse, medianValue_perm (reverse_perm timestamps)]

/-! ## The ancestors of a branch block -/

/-- The height of the main-chain block a branch leaves from. -/
def forkHeight (walk : List (Hash × BlockEntry)) (mainPrevHeight : Option Nat) : Option Nat :=
  match walk.getLast? with
  | some front => some (front.2.height - 1)
  | none => mainPrevHeight

/-- The timestamps before a block of a branch: the main chain up to the fork, then the
stored blocks. `walk` is youngest first. -/
def ancestorTimestamps (db : Db) (fork : Nat) (walk : List (Hash × BlockEntry)) : List UInt64 :=
  (db.metas.take (fork + 1)).map DbBlockMeta.timestamp ++ (walk.map fun x => x.2.bl.timestamp).reverse

theorem ancestorTimestamps_length {db : Db} {fork : Nat} (h : fork < db.getChainHeight)
    (walk : List (Hash × BlockEntry)) : (ancestorTimestamps db fork walk).length = fork + 1 + walk.length := by
  have : fork < db.metas.length := h
  simp only [ancestorTimestamps, length_append, length_map, length_take, length_reverse]
  omega

theorem branch_timestamps {N : NodeEnv} {s : Node} {walk : List (Hash × BlockEntry)}
    {mainPrevHeight : Option Nat} {br : Branch} (h : s.branch N walk mainPrevHeight = some br)
    (hheights : ∀ k, mainPrevHeight = some k → k < s.db.getChainHeight) {fork : Nat}
    (hfork : forkHeight walk mainPrevHeight = some fork) :
    fork < s.db.getChainHeight ∧
      br.timestamps = completeTimestampsVector s.db fork (walk.map fun x => x.2.bl.timestamp) := by
  unfold Node.branch at h
  split at h
  · rename_i x front hx hfront
    simp only [forkHeight, hfront, Option.some.injEq] at hfork
    split at h
    · cases h
    rename_i hlower
    split at h
    · cases h
    cases h
    exact ⟨by omega, by rw [← hfork]⟩
  · rename_i hnot
    have hnil : walk = [] := by
      cases walk with
      | nil => rfl
      | cons x rest =>
        exact absurd (getLast?_eq_some_getLast (cons_ne_nil x rest)) (hnot x _ rfl)
    subst hnil
    simp only [forkHeight, getLast?_nil] at hfork
    subst hfork
    cases h
    exact ⟨hheights fork rfl, rfl⟩

/-! ## The backward loop -/

/-- The position among the ancestors of the oldest timestamp the branch check reads. -/
def firstTaken (stored fork : Nat) : Nat :=
  if timestampCheckWindow ≤ stored then fork + 1
  else if fork = 0 then 0
  else fork - (timestampCheckWindow - stored) + 1

theorem getBlockMeta_timestamp {db : Db} {k : Nat} (h : k < db.metas.length) :
    (db.metas[k]?).map DbBlockMeta.timestamp = some (db.getBlockMeta k).timestamp := by
  simp [Db.getBlockMeta, getElem?_eq_getElem h]

/-- Heights `m - 1` down from `fork`, read backwards, are a stretch of the chain. -/
theorem backward_timestamps {db : Db} {fork m : Nat} (h : fork < db.getChainHeight) (hm : m ≤ fork + 1) :
    (((List.range m).map (fork - ·)).map fun k => (db.getBlockMeta k).timestamp).reverse =
      ((db.metas.take (fork + 1)).map DbBlockMeta.timestamp).drop (fork + 1 - m) := by
  have hlen : fork < db.metas.length := h
  apply ext_getElem?
  intro i
  rw [getElem?_drop, getElem?_map, getElem?_take]
  by_cases hi : i < m
  · rw [getElem?_reverse (by simpa using hi), getElem?_map, getElem?_map, getElem?_range (by simp; omega)]
    simp only [length_map, length_range, Option.map_some]
    rw [if_pos (by omega), getBlockMeta_timestamp (by omega), show fork - (m - 1 - i) = fork + 1 - m + i by omega]
  · rw [getElem?_eq_none (by simpa using hi), if_neg (by omega)]
    rfl

/-- What the branch check reads, oldest first: a suffix of the ancestors. -/
theorem completeTimestampsVector_reverse {db : Db} {fork : Nat} (h : fork < db.getChainHeight)
    (walk : List (Hash × BlockEntry)) :
    (completeTimestampsVector db fork (walk.map fun x => x.2.bl.timestamp)).reverse =
      (ancestorTimestamps db fork walk).drop (firstTaken walk.length fork) := by
  have hmain : ((db.metas.take (fork + 1)).map DbBlockMeta.timestamp).length = fork + 1 := by
    have : fork < db.metas.length := h
    simp only [length_map, length_take]
    omega
  unfold completeTimestampsVector firstTaken ancestorTimestamps
  rw [length_map]
  by_cases hfull : timestampCheckWindow ≤ walk.length
  · rw [if_pos hfull, if_pos hfull, drop_left' hmain]
  · rw [if_neg hfull, if_neg hfull, if_neg (not_not.mpr h)]
    by_cases hzero : fork = 0
    · subst hzero
      have := backward_timestamps (m := 1) h (by omega)
      simp only [reverse_append]
      simpa using congrArg (· ++ (walk.map fun x => x.2.bl.timestamp).reverse) this
    · have hstop : (if fork > timestampCheckWindow - walk.length
          then fork - (timestampCheckWindow - walk.length) else 0) = fork - (timestampCheckWindow - walk.length) := by
        split <;> omega
      dsimp only
      rw [if_neg hzero, if_neg hzero, hstop, reverse_append, backward_timestamps h (by omega),
        drop_append_of_le_length (by omega)]
      congr 2
      omega

/-! ## The two verdicts -/

theorem checkBlockTimestampMain_eq {main : Db} {now : Nat} {b : Block}
    (hnow : b.timestamp.toNat ≤ now + blockFutureTimeLimit) :
    checkBlockTimestampMain main now b = checkBlockTimestamp ((main.metas.map DbBlockMeta.timestamp).drop
        (main.metas.length - timestampCheckWindow)) b := by
  unfold checkBlockTimestampMain Db.getBlockMetaRange Db.getChainHeight
  rw [if_neg (by omega)]
  dsimp only
  rw [take_of_length_le (by simp only [length_drop]; omega), map_drop]

/-- Where the two checks of a block with these ancestors agree: its timestamp lies on one
side of the median of a branch longer than the window and of the median of the last
window, and a chain exactly as long as the window would not refuse it unless the
branch leaves from genesis. -/
def VerdictsMeet (stored : Nat) (ancestors : List UInt64) (b : Block) : Prop :=
  (timestampCheckWindow < stored → (b.timestamp < medianValue (ancestors.drop (ancestors.length - stored)) ↔
      b.timestamp < medianValue (ancestors.drop (ancestors.length - timestampCheckWindow)))) ∧
  (ancestors.length = timestampCheckWindow → stored + 1 < timestampCheckWindow → ¬ b.timestamp < medianValue ancestors)

instance (stored : Nat) (ancestors : List UInt64) (b : Block) :
    Decidable (VerdictsMeet stored ancestors b) :=
  inferInstanceAs (Decidable (_ ∧ _))

theorem checkBlockTimestamp_short {timestamps : List UInt64} (h : timestamps.length < timestampCheckWindow) (b : Block)
    : checkBlockTimestamp timestamps b = true := by
  rw [checkBlockTimestamp, if_pos h]

theorem checkBlockTimestamp_full {timestamps : List UInt64} (h : timestampCheckWindow ≤ timestamps.length) (b : Block) :
    checkBlockTimestamp timestamps b = decide (¬ b.timestamp < medianValue timestamps) := by
  rw [checkBlockTimestamp, if_neg (by omega)]

/-- The verdict over the suffix the branch check reads against the one over the last window,
for every split of the ancestors. -/
theorem suffix_verdicts_iff {ancestors : List UInt64} {stored fork : Nat} (b : Block)
    (hlen : ancestors.length = fork + 1 + stored) :
    checkBlockTimestamp (ancestors.drop (firstTaken stored fork)) b =
        checkBlockTimestamp (ancestors.drop (ancestors.length - timestampCheckWindow)) b ↔
      VerdictsMeet stored ancestors b := by
  have hw : timestampCheckWindow = 11 := rfl
  unfold VerdictsMeet firstTaken
  by_cases hlong : timestampCheckWindow < stored
  · -- all stored blocks count
    rw [if_pos hlong.le, checkBlockTimestamp_full (by simp only [length_drop]; omega),
      checkBlockTimestamp_full (by simp only [length_drop]; omega), decide_eq_decide,
      show ancestors.length - stored = fork + 1 by omega]
    constructor
    · intro h
      exact ⟨fun _ => not_iff_not.mp h, fun hc => absurd hc (by omega)⟩
    · intro h
      exact not_congr (h.1 hlong)
  · have hshort : ¬ timestampCheckWindow < stored := hlong
    by_cases hedge : ancestors.length = timestampCheckWindow ∧ stored + 1 < timestampCheckWindow
    · -- genesis is left out, and nothing is checked
      obtain ⟨heq, hfork⟩ := hedge
      rw [if_neg (by omega), if_neg (by omega),
        checkBlockTimestamp_short (by simp only [length_drop]; omega), heq, Nat.sub_self,
        drop_zero, checkBlockTimestamp_full heq.ge]
      constructor
      · intro h
        exact ⟨fun hc => absurd hc hlong, fun _ _ => of_decide_eq_true h.symm⟩
      · intro h
        exact (decide_eq_true (h.2 rfl hfork)).symm
    · refine iff_of_true ?_ ⟨fun hc => absurd hc hlong, fun h1 h2 => absurd ⟨h1, h2⟩ hedge⟩
      by_cases hfew : ancestors.length < timestampCheckWindow
      · rw [checkBlockTimestamp_short (by simp only [length_drop]; omega),
          checkBlockTimestamp_short (by simp only [length_drop]; omega)]
      · -- the loop ends where the range starts
        congr 2
        split
        · omega
        · split <;> omega

/-- For every node, block and branch, whatever its length and wherever it leaves the main
chain: the median verdict on the block as a block of the branch is the verdict on the
tip of a chain with the same ancestors, exactly when `VerdictsMeet`. -/
theorem timestamp_verdicts_iff {N : NodeEnv} {s : Node} {b : Block} {walk : List (Hash × BlockEntry)} {br : Branch}
    (hbranch : s.branch N walk (s.db.hashHeight b.previousBlockHash) = some br)
    (hheights : ∀ k, s.db.hashHeight b.previousBlockHash = some k → k < s.db.getChainHeight) {fork : Nat}
    (hfork : forkHeight walk (s.db.hashHeight b.previousBlockHash) = some fork) {main : Db}
    (hmain : main.metas.map DbBlockMeta.timestamp = ancestorTimestamps s.db fork walk) {now : Nat}
    (hnow : b.timestamp.toNat ≤ now + blockFutureTimeLimit) :
    checkBlockTimestamp br.timestamps b = checkBlockTimestampMain main now b ↔
      VerdictsMeet walk.length (ancestorTimestamps s.db fork walk) b := by
  obtain ⟨hlt, htimes⟩ := branch_timestamps hbranch hheights hfork
  have hlen : main.metas.length = (ancestorTimestamps s.db fork walk).length := by
    rw [← hmain, length_map]
  rw [checkBlockTimestampMain_eq hnow, hmain, hlen, htimes, ← checkBlockTimestamp_reverse,
    completeTimestampsVector_reverse hlt]
  exact suffix_verdicts_iff b (ancestorTimestamps_length hlt walk)

/-! ### Runs -/

/-- A main chain with these timestamps and nothing else. -/
def datedDb (timestamps : List UInt64) : Db :=
  { Db.empty with metas := timestamps.map fun t => ⟨nullHash, nullHash, t, 0, 0, 0, 0, 0, 1, 0⟩ }

theorem datedDb_timestamps (timestamps : List UInt64) :
    (datedDb timestamps).metas.map DbBlockMeta.timestamp = timestamps := by
  simp [datedDb, Function.comp_def]

/-- Beside a main chain of twelve blocks, on its eleventh, with the timestamp zero. -/
def earlyTwelfth : Block := flatNext ((mineOn 10 flatGenesis 0).getLastD flatGenesis) 11 0 []

/-- The branch check of a running node lets it pass; a main chain of the same eleven blocks
refuses it. -/
theorem branch_accepts_early :
    ∃ s walk br fork, (nodeLts flatNode).Reachable s ∧
      altWalk s.alternativeChains s.alternativeChains.entries.length earlyTwelfth.previousBlockHash = some walk ∧
      s.branch flatNode walk (s.db.hashHeight earlyTwelfth.previousBlockHash) = some br ∧
      forkHeight walk (s.db.hashHeight earlyTwelfth.previousBlockHash) = some fork ∧
      (ancestorTimestamps s.db fork walk).length = timestampCheckWindow ∧
      checkBlockTimestamp br.timestamps earlyTwelfth = true ∧
      checkBlockTimestampMain (datedDb (ancestorTimestamps s.db fork walk)) 2000 earlyTwelfth = false := by
  obtain ⟨s, hs, h⟩ := (Option.any_eq_true _ _).mp (show
    (addBlocks flatNode 2 flatGenesis (mineOn 11 flatGenesis 0)).any (fun s =>
      (altWalk s.alternativeChains s.alternativeChains.entries.length
          earlyTwelfth.previousBlockHash).any fun walk =>
        (s.branch flatNode walk (s.db.hashHeight earlyTwelfth.previousBlockHash)).any fun br =>
          decide (forkHeight walk (s.db.hashHeight earlyTwelfth.previousBlockHash) = some 10 ∧
            (ancestorTimestamps s.db 10 walk).length = timestampCheckWindow ∧
            checkBlockTimestamp br.timestamps earlyTwelfth = true ∧
            checkBlockTimestampMain (datedDb (ancestorTimestamps s.db 10 walk)) 2000 earlyTwelfth = false)) = true by
    decide +kernel)
  obtain ⟨walk, hwalk, h⟩ := (Option.any_eq_true _ _).mp h
  obtain ⟨br, hbr, h⟩ := (Option.any_eq_true _ _).mp h
  exact ⟨s, walk, br, 10, addBlocks_run id .inl rfl hs, hwalk, hbr, of_decide_eq_true h⟩

/-- A node whose main chain has these timestamps, and `nullHash` as the id of the last
block but one. -/
def datedNode (timestamps : List UInt64) : Node :=
  { Node.new with
    db := { datedDb timestamps with
            hashHeight := Table.empty.put nullHash (timestamps.length - 2) } }

/-- A block one second before the median of the twelve blocks it follows is refused on both
paths. -/
theorem timestamp_verdicts_thirteenth :
    ∃ br, (datedNode (List.replicate 13 1000)).branch flatNode [] (some 11) = some br ∧
      checkBlockTimestamp br.timestamps (flatBlock nullHash 12 999 8010 []) =
        checkBlockTimestampMain (datedDb (List.replicate 12 1000)) 2000
          (flatBlock nullHash 12 999 8010 []) ∧
      checkBlockTimestamp br.timestamps (flatBlock nullHash 12 999 8010 []) = false := by
  have hheight : (datedNode (List.replicate 13 1000)).db.hashHeight
      (flatBlock nullHash 12 999 8010 []).previousBlockHash = some 11 := by decide +kernel
  obtain ⟨br, hbr, hrefuse⟩ := (Option.any_eq_true _ _).mp (show
    ((datedNode (List.replicate 13 1000)).branch flatNode []
      ((datedNode (List.replicate 13 1000)).db.hashHeight
        (flatBlock nullHash 12 999 8010 []).previousBlockHash)).any (fun br =>
      decide (checkBlockTimestamp br.timestamps (flatBlock nullHash 12 999 8010 []) = false)) = true by
    decide +kernel)
  have hagree := (timestamp_verdicts_iff (b := flatBlock nullHash 12 999 8010 []) hbr
    (by rw [hheight]; rintro k ⟨⟩; decide +kernel) hheight
    (datedDb_timestamps (List.replicate 12 1000))
    (show (flatBlock nullHash 12 999 8010 []).timestamp.toNat ≤ 2000 + blockFutureTimeLimit by
      decide +kernel)).mpr
    (by decide +kernel)
  exact ⟨br, hheight ▸ hbr, hagree, of_decide_eq_true hrefuse⟩

end Discrete.L4
