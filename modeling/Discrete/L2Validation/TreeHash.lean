import Mathlib.Data.Nat.Log
import Discrete.Core.PairArray
import Discrete.L2Validation.BlockId

/-!
# The tree hash in memory (`tree-hash.c`)

`treeHash` of `BlockId` is the root on lists. Here are the loops of the source on their arrays,
with every index checked against the array it goes into and every assertion tested: a function
answers `none` where one fails. `calloc` and `alloca` are taken to succeed, and memory that has
not been written reads as zeros.

`tree_branch_agrees`: the loops stay inside their arrays and compute `treeHash`; the branch that
`treeBranch` writes has one entry per level, and folding it onto the first leaf gives the same
root; equal roots over as many leaves have equal leaves, unless two of the pairs hashed on the
way collide.
-/
namespace Discrete.L2
open List Option L1 PairTree

section
variable (P : Primitives)

/-! ## Loops -/

/-- `memcpy(ints, hashes + start, n * HASH_SIZE)` into a new array of `cnt` hashes. -/
def copyFront (hashes : List Hash) (start n cnt : Nat) : Option (List Hash) :=
  if start + n ≤ hashes.length ∧ n ≤ cnt then
    some ((hashes.drop start).take n ++ List.replicate (cnt - n) nullHash)
  else none

/-- `while (cnt > 2)`. Every turn halves `cnt`, so 64 turns are enough for a `size_t`.
mirrors tree-hash.c:51-56 -/
def halveLoop : (fuel cnt : Nat) → List Hash → Option (List Hash)
  | 0, _, _ => none
  | fuel + 1, cnt, ints =>
    if cnt > 2 then (pairLoop (hashPair P) id 0 0 (cnt / 2) ints).bind fun r => halveLoop fuel (cnt / 2) r.1
    else some ints

/-- mirrors tree-hash.c:31-60 -/
def treeHashArrays (hashes : List Hash) : Option Hash :=
  let count := hashes.length
  if count = 0 then none
  else if count = 1 then hashes[0]?
  else if count = 2 then hashes[0]?.bind fun a => hashes[1]?.map (hashPair P a)
  else
    let cnt := treePower count
    if count > 2 * cnt then none
    else do
      let ints ← copyFront hashes 0 (2 * cnt - count) cnt
      let (ints, i) ← pairLoop (hashPair P) (fun _ => hashes) (2 * cnt - count) (2 * cnt - count)
        (cnt - (2 * cnt - count)) ints
      if i ≠ count then none
      else
        let ints ← halveLoop P 64 cnt ints
        ints[0]?.bind fun a => ints[1]?.map (hashPair P a)

def depthTurn (s : Nat × Nat) (i : Nat) : Nat × Nat := if s.1 >>> i > 0 then (s.1 >>> i, s.2 + i) else s

/-- mirrors tree-hash.c:62-73 -/
def treeDepth (count : Nat) : Nat := ([32, 16, 8, 4, 2, 1].foldl depthTurn (count, 0)).2

def sizeTurn (count : Nat) (s : Nat × Nat) (i : Nat) : Nat × Nat :=
  if s.1 <<< i % 2 ^ 64 ≤ count then (s.1 <<< i % 2 ^ 64, s.2 + i) else s

/-- The largest power of two that is at most `count`, and its exponent.
mirrors tree-hash.c:81-86 -/
def branchSize (count : Nat) : Nat × Nat := [32, 16, 8, 4, 2, 1].foldl (sizeTurn count) (1, 0)

/-- `while (depth > 0)`.
mirrors tree-hash.c:95-103 -/
def branchLoop : (depth cnt : Nat) → (ints branch : List Hash) → Option (List Hash)
  | 0, _, _, branch => some branch
  | depth + 1, cnt, ints, branch =>
    if cnt ≠ 2 ^ (depth + 1) then none
    else do
      let first ← ints[0]?
      let branch ← put branch depth first
      let (ints, _) ← pairLoop (hashPair P) id 1 0 (cnt / 2 - 1) ints
      branchLoop depth (cnt / 2) ints branch

/-- `branch` has room for `tree_depth(count)` hashes.
mirrors tree-hash.c:75-104 -/
def treeBranch (hashes : List Hash) : Option (List Hash) :=
  let count := hashes.length
  if count = 0 then none
  else
    let (cnt, depth) := branchSize count
    if cnt ≠ 2 ^ depth ∨ depth ≠ treeDepth count ∨ count + 1 > 2 * cnt then none
    else do
      let ints ← copyFront hashes 1 (2 * cnt - count - 1) (cnt - 1)
      let (ints, i) ← pairLoop (hashPair P) (fun _ => hashes) (2 * cnt - count) (2 * cnt - count - 1)
        (cnt - 1 - (2 * cnt - count - 1)) ints
      if i ≠ count then none else branchLoop P depth cnt ints (List.replicate (treeDepth count) nullHash)

/-- Which side the leaf is on, without a path always the left. -/
def onRight (path : Option Bytes) (depth : Nat) : Option Bool :=
  match path with
  | none => some false
  | some p => p[depth >>> 3]?.map fun b => b.toNat.testBit (depth &&& 7)

/-- What the two halves of the buffer stand for: the leaf before they are filled, then the node
above them. -/
def bufferValue (leaf : Hash) : Option (Hash × Hash) → Hash
  | none => leaf
  | some buffer => hashPair P buffer.1 buffer.2

def climbLoop (branch : List Hash) (leaf : Hash) (path : Option Bytes) :
    (depth : Nat) → Option (Hash × Hash) → Option (Option (Hash × Hash))
  | 0, buffer => some buffer
  | depth + 1, buffer => do
    let right ← onRight path depth
    let sibling ← branch[depth]?
    climbLoop branch leaf path depth
      (some (if right then (sibling, bufferValue P leaf buffer) else (bufferValue P leaf buffer, sibling)))

/-- mirrors tree-hash.c:106-132 -/
def treeHashFromBranch (branch : List Hash) (depth : Nat) (leaf : Hash) (path : Option Bytes) : Option Hash :=
  if depth = 0 then some leaf else (climbLoop P branch leaf path depth none).map (bufferValue P leaf)

end

/-! ## Sizes -/

/-- The part of the number that is left has half as many bits; the bits shifted out are counted. -/
theorem depthTurn_spec {s : Nat × Nat} {i total : Nat} (h : 0 < s.1 ∧ s.1 < 2 ^ (2 * i) ∧ s.2 + Nat.log2 s.1 = total) :
    0 < (depthTurn s i).1 ∧ (depthTurn s i).1 < 2 ^ i ∧ (depthTurn s i).2 + Nat.log2 (depthTurn s i).1 = total := by
  obtain ⟨hpos, hlt, hlog⟩ := h
  unfold depthTurn
  rw [Nat.shiftRight_eq_div_pow]
  split
  · rename_i hhigh
    have hge : 2 ^ i ≤ s.1 := by
      by_contra hcon
      rw [Nat.div_eq_of_lt (not_le.mp hcon)] at hhigh
      exact absurd hhigh (by decide)
    have hle : i ≤ Nat.log2 s.1 := (Nat.le_log2 (by omega)).mpr hge
    refine ⟨hhigh, Nat.div_lt_of_lt_mul (by rwa [← Nat.pow_add, ← Nat.two_mul]), ?_⟩
    rw [Nat.log2_eq_log_two, Nat.log_div_base_pow, ← Nat.log2_eq_log_two]
    dsimp only
    omega
  · rename_i hhigh
    refine ⟨hpos, ?_, hlog⟩
    by_contra hcon
    exact hhigh (Nat.div_pos (not_lt.mp hcon) (Nat.two_pow_pos i))

theorem treeDepth_eq {count : Nat} (hpos : 0 < count) (hlt : count < 2 ^ 64) : treeDepth count = Nat.log2 count := by
  have h32 := depthTurn_spec (s := (count, 0)) (i := 32) ⟨hpos, hlt, Nat.zero_add _⟩
  have h1 := depthTurn_spec (i := 1) (depthTurn_spec (i := 2) (depthTurn_spec (i := 4) (depthTurn_spec (i := 8)
    (depthTurn_spec (i := 16) h32))))
  obtain ⟨hcur, hone, hlog⟩ := h1
  unfold treeDepth
  simp only [foldl_cons, foldl_nil]
  generalize depthTurn (depthTurn (depthTurn (depthTurn (depthTurn (depthTurn (count, 0) 32) 16) 8) 4) 2) 1 = s at *
  have hs : s.1 = 1 := by omega
  rw [hs, show Nat.log2 1 = 0 by decide] at hlog
  exact hlog

/-- `cnt` is the power of two found so far; what is left to find has half as many bits. -/
structure SizeFound (count i : Nat) (s : Nat × Nat) : Prop where
  power : s.1 = 2 ^ s.2
  le : 2 ^ s.2 ≤ count
  lt : count < 2 ^ (s.2 + i)
  room : s.2 + i ≤ 64

theorem SizeFound.turn {count i : Nat} {s : Nat × Nat} (hi : 0 < i) (h : SizeFound count (2 * i) s) :
    SizeFound count i (sizeTurn count s i) := by
  have hroom := h.room
  have hshift : s.1 <<< i % 2 ^ 64 = 2 ^ (s.2 + i) := by
    rw [Nat.shiftLeft_eq, h.power, ← Nat.pow_add]
    exact Nat.mod_eq_of_lt (Nat.pow_lt_pow_right (by decide) (by omega))
  unfold sizeTurn
  rw [hshift]
  split
  · rename_i hle
    exact ⟨rfl, hle, by have := h.lt; rwa [Nat.two_mul, ← Nat.add_assoc] at this, by dsimp only; omega⟩
  · rename_i hgt
    exact ⟨h.power, h.le, not_le.mp hgt, by omega⟩

theorem branchSize_eq {count : Nat} (hpos : 0 < count) (hlt : count < 2 ^ 64) :
    branchSize count = (2 ^ Nat.log2 count, Nat.log2 count) := by
  have h64 : SizeFound count (2 * 32) (1, 0) := ⟨rfl, hpos, hlt, le_rfl⟩
  have h1 := SizeFound.turn (i := 1) (by decide) <| SizeFound.turn (i := 2) (by decide) <|
    SizeFound.turn (i := 4) (by decide) <| SizeFound.turn (i := 8) (by decide) <|
    SizeFound.turn (i := 16) (by decide) <| SizeFound.turn (i := 32) (by decide) h64
  unfold branchSize
  simp only [foldl_cons, foldl_nil]
  generalize sizeTurn count _ 1 = s at *
  have hlog : Nat.log2 count = s.2 := (Nat.log2_eq_iff (by omega)).mpr ⟨h1.le, h1.lt⟩
  rw [hlog]
  exact Prod.ext h1.power rfl

/-! ## The root -/

section
variable {P : Primitives}

/-- The copied leaves and the paired ones are the first level, without its first `o` values. -/
theorem firstLevel_eq (hashes : List Hash) {o single : Nat} (cnt : Nat) (ho : o ≤ single) (hsingle : single ≤ cnt)
    (hcount : hashes.length + single = 2 * cnt) :
    ((copyFront hashes o (single - o) (cnt - o)).bind fun ints =>
      pairLoop (hashPair P) (fun _ => hashes) single (single - o) (cnt - single) ints) =
      some ((level (hashPair P) single hashes).drop o, hashes.length) := by
  have hfront : ((hashes.drop o).take (single - o)).length = single - o := by
    rw [length_take, length_drop]
    omega
  have hall : (hashes.drop single).take (2 * (cnt - single)) = hashes.drop single :=
    take_of_length_le (by rw [length_drop]; omega)
  have hdrop : (hashes.drop o).take (single - o) = (hashes.take single).drop o := by
    rw [drop_take]
  have hend : ((hashes.drop o).take (single - o) ++ List.replicate (cnt - o - (single - o)) nullHash).drop
      (single - o + (cnt - single)) = [] := by
    apply drop_eq_nil_of_le
    rw [length_append, hfront, length_replicate]
    omega
  rw [copyFront, if_pos ⟨by omega, by omega⟩, bind_some,
    pairLoop_eq (hashPair P) (untouched_const hashes _) (by omega) (by omega) (by
      rw [length_append, hfront, length_replicate]
      omega), take_left' hfront, hall, hend, append_nil, hdrop, level,
    drop_append_of_le_length (by rw [length_take]; omega)]
  congr 2
  omega

/-- The level stands in the front of the array; each turn leaves the next level there. -/
theorem halveLoop_eq : ∀ {k : Nat} (fuel : Nat) {ints level : List Hash}, ints.take (2 ^ (k + 1)) = level →
    level.length = 2 ^ (k + 1) → k < fuel →
    ∃ ints', halveLoop P fuel (2 ^ (k + 1)) ints = some ints' ∧ ints'.take 2 = (pairUp (hashPair P))^[k] level
  | 0, _ + 1, ints, level, h, _, _ => ⟨ints, if_neg (by decide), h⟩
  | k + 1, fuel + 1, ints, level, h, hlen, hk => by
    have hpow : 2 ≤ 2 ^ (k + 1) := Nat.le_self_pow (by omega) 2
    have hhalf : 2 ^ (k + 1 + 1) / 2 = 2 ^ (k + 1) := by rw [Nat.pow_succ, Nat.mul_div_cancel _ (by decide)]
    have hints : 2 ^ (k + 1 + 1) ≤ ints.length := by
      have := congrArg List.length h
      rw [length_take, hlen] at this
      omega
    have hdouble : 2 ^ (k + 1 + 1) = 2 * 2 ^ (k + 1) := by rw [Nat.pow_succ, Nat.mul_comm]
    have hloop := pairLoop_eq (hashPair P) (untouched_self ints) (i := 0) (j := 0) (n := 2 ^ (k + 1)) le_rfl
      (by omega) (by omega)
    rw [take_zero, nil_append, drop_zero, ← hdouble, h] at hloop
    have hnext := pairUp_length (hashPair P) (hlen.trans hdouble)
    obtain ⟨ints', hrun, htake⟩ := halveLoop_eq fuel (take_left' hnext) hnext (by omega)
    refine ⟨ints', ?_, htake⟩
    rw [halveLoop, if_pos (by omega), hhalf, hloop]
    exact hrun

theorem treeHashArrays_eq {hashes : List Hash} (hne : hashes ≠ []) (hlt : hashes.length < 2 ^ 64) :
    treeHashArrays P hashes = some (treeHash P hashes) := by
  have hroot := treeHash_root (P := P) hne hlt
  rcases Nat.lt_or_ge 2 hashes.length with hlen | hlen
  · obtain ⟨k, hk, hle, hge⟩ := treePower_fits hlen hlt
    have hfuel : k < 64 := by
      have : 2 ^ (k + 1) < 2 ^ 64 := by omega
      have := (Nat.pow_lt_pow_iff_right (a := 2) (by decide)).mp this
      omega
    rw [hk] at hroot
    have htop := root_of_fits (hashPair P) hlen hle hge hroot
    have hlevel := level_length (hashPair P) hle hge
    have hfirst := firstLevel_eq (P := P) hashes (2 ^ (k + 1)) (Nat.zero_le (2 * 2 ^ (k + 1) - hashes.length)) (by omega)
      (by omega)
    rw [Nat.sub_zero, Nat.sub_zero, drop_zero] at hfirst
    obtain ⟨ints, hhalve, htwo⟩ := halveLoop_eq (P := P) 64 (take_of_length_le hlevel.le) hlevel hfuel
    unfold treeHashArrays
    dsimp only
    rw [if_neg (by omega), if_neg (by omega), if_neg (by omega), hk, if_neg (by omega)]
    simp only [bind_eq_bind]
    rw [← bind_assoc, hfirst, bind_some, if_neg (not_not.mpr rfl), hhalve, bind_some]
    -- two values are left, and the last node is the root
    have hlast : (ints.take 2).length = 2 := by
      rw [htwo]
      exact iterate_pairUp_length (hashPair P) (k := 1) hlevel
    obtain ⟨x, y, hxy⟩ := length_eq_two.mp hlast
    rw [Function.iterate_succ_apply', ← htwo, hxy] at htop
    have hx : ints[0]? = some x := by
      rw [← getElem?_take_of_lt (show 0 < 2 by decide), hxy]
      rfl
    have hy : ints[1]? = some y := by
      rw [← getElem?_take_of_lt (show 1 < 2 by decide), hxy]
      rfl
    rw [hx, hy]
    exact congrArg List.head? htop
  · match hashes, hne, hroot with
    | [a], _, hroot => exact hroot
    | [a, b], _, hroot => exact hroot
    | a :: b :: c :: l, _, _ =>
      simp only [length_cons] at hlen
      omega

/-! ## The branch -/

/-- The array holds the level without its first value. -/
theorem branchLoop_eq : ∀ {d : Nat} {ints lv : List Hash} (branch : List Hash), lv.length = 2 ^ d →
    ints.take (2 ^ d - 1) = lv.tail → d ≤ branch.length →
    branchLoop P d (2 ^ d) ints branch = some ((siblings (hashPair P) d lv).reverse ++ branch.drop d)
  | 0, _, _, _, _, _, _ => rfl
  | d + 1, ints, lv, branch, hlen, h, hbranch => by
    have hpow := Nat.two_pow_pos d
    have hdouble : 2 ^ (d + 1) = 2 * 2 ^ d := by rw [Nat.pow_succ, Nat.mul_comm]
    match lv, hlen, h with
    | a :: b :: l, hlen, h =>
      simp only [length_cons] at hlen
      rw [tail_cons] at h
      have hints : 2 ^ (d + 1) - 1 ≤ ints.length := by
        have := congrArg List.length h
        rw [length_take, length_cons] at this
        omega
      have hfirst : ints[0]? = some b := by
        rw [← getElem?_take_of_lt (show 0 < 2 ^ (d + 1) - 1 by omega), h]
        rfl
      have hrest : (ints.drop 1).take (2 * (2 ^ d - 1)) = l := by
        have := congrArg (List.drop 1) h
        rw [drop_take] at this
        rw [show 2 * (2 ^ d - 1) = 2 ^ (d + 1) - 1 - 1 by omega, this]
        rfl
      have hloop := pairLoop_eq (hashPair P) (untouched_self ints) (i := 1) (j := 0) (n := 2 ^ d - 1) (by omega)
        (by omega) (by omega)
      rw [take_zero, nil_append, hrest] at hloop
      have hnext : (pairUp (hashPair P) l).length = 2 ^ d - 1 := pairUp_length _ (by omega)
      have hup : (pairUp (hashPair P) (a :: b :: l)).length = 2 ^ d :=
        pairUp_length _ (by simp only [length_cons]; omega)
      have hfront : (pairUp (hashPair P) l ++ ints.drop (0 + (2 ^ d - 1))).take (2 ^ d - 1) = pairUp (hashPair P) l :=
        take_left' hnext
      have ih := branchLoop_eq (branch.set d b) hup hfront (by rw [length_set]; omega)
      have hput : put branch d b = some (branch.set d b) := if_pos (by omega)
      rw [branchLoop, if_neg (not_not.mpr rfl), hfirst]
      simp only [bind_eq_bind, bind_some, hput]
      rw [hdouble, Nat.mul_div_cancel_left _ (by decide), hloop, bind_some]
      refine ih.trans ?_
      have hdrop : (branch.set d b).drop d = b :: branch.drop (d + 1) := by
        rw [drop_eq_getElem_cons (by rw [length_set]; omega), getElem_set_self, drop_set_of_lt (Nat.lt_succ_self d)]
      rw [hdrop, siblings]
      simp
    | [_], hlen, _ =>
      simp only [length_singleton] at hlen
      omega
    | [], hlen, _ =>
      simp only [length_nil] at hlen
      omega

theorem treeBranch_eq {hashes : List Hash} (hne : hashes ≠ []) (hlt : hashes.length < 2 ^ 64) :
    treeBranch P hashes = some (siblings (hashPair P) (Nat.log2 hashes.length)
      (level (hashPair P) (2 * 2 ^ Nat.log2 hashes.length - hashes.length) hashes)).reverse := by
  have hpos := length_pos_iff.mpr hne
  have hdepth := treeDepth_eq hpos hlt
  obtain ⟨hle, hgt⟩ := (Nat.log2_eq_iff (by omega)).mp (rfl : Nat.log2 hashes.length = _)
  generalize hd : Nat.log2 hashes.length = d at *
  rw [Nat.pow_succ, Nat.mul_comm] at hgt
  have hlevel := level_length (hashPair P) hle (by omega)
  have hone : 1 ≤ 2 * 2 ^ d - hashes.length := by omega
  have hfirst := firstLevel_eq (P := P) hashes (2 ^ d) hone (by omega) (by omega)
  have hloop := branchLoop_eq (P := P) (List.replicate d nullHash) hlevel
    (take_of_length_le (by rw [length_tail]; omega)) (by rw [length_replicate])
  rw [drop_one] at hfirst
  unfold treeBranch
  dsimp only
  rw [if_neg (by omega), branchSize_eq hpos hlt, hd, hdepth]
  dsimp only
  rw [if_neg (by omega)]
  simp only [bind_eq_bind]
  have hturns : 2 ^ d - 1 - (2 * 2 ^ d - hashes.length - 1) = 2 ^ d - (2 * 2 ^ d - hashes.length) := by omega
  rw [hturns, ← bind_assoc, hfirst, bind_some, if_neg (not_not.mpr rfl)]
  refine hloop.trans ?_
  simp

/-! ## The way back -/

/-- Without a path the leaf is always on the left. -/
theorem climbLoop_eq {branch : List Hash} {leaf : Hash} : ∀ {d : Nat} (buffer : Option (Hash × Hash)),
    d ≤ branch.length → ∃ buffer', climbLoop P branch leaf none d buffer = some buffer' ∧
      bufferValue P leaf buffer' = (branch.take d).reverse.foldl (hashPair P) (bufferValue P leaf buffer)
  | 0, buffer, _ => ⟨buffer, rfl, rfl⟩
  | d + 1, buffer, h => by
    have hget := getElem?_eq_getElem (show d < branch.length by omega)
    have hd : d ≤ branch.length := by omega
    obtain ⟨buffer', hrun, hvalue⟩ := climbLoop_eq (some (bufferValue P leaf buffer, branch[d])) hd
    refine ⟨buffer', ?_, ?_⟩
    · simp only [climbLoop, onRight, hget, bind_eq_bind, bind_some]
      exact hrun
    · rw [hvalue, take_add_one, hget, toList_some, reverse_append]
      rfl

theorem treeHashFromBranch_eq (branch : List Hash) (leaf : Hash) :
    treeHashFromBranch P branch branch.length leaf none = some (branch.reverse.foldl (hashPair P) leaf) := by
  unfold treeHashFromBranch
  split
  · rename_i h
    rw [length_eq_zero_iff.mp h]
    rfl
  · obtain ⟨buffer, hrun, hvalue⟩ := climbLoop_eq (P := P) none (le_refl branch.length)
    rw [hrun, map_some, hvalue, take_length]
    rfl

/-- The pairs that are hashed on the way to the root. -/
def treePairs (P : Primitives) (hashes : List Hash) : List (Hash × Hash) :=
  rootPairs (hashPair P) (treePower hashes.length) hashes

/-- The first leaf is the first value of the first level, unless the level has no leaf of its own. -/
theorem level_head {single : Nat} {hashes : List Hash} (h : 0 < single) :
    (level (hashPair P) single hashes)[0]? = hashes[0]? := by
  match hashes, single, h with
  | [], single + 1, _ => rfl
  | a :: l, single + 1, _ => rfl

/-- For every list of hashes: the loops do not leave their arrays, the branch has one entry for
each level and leads from the first leaf to the root, and the root names the leaves. -/
theorem tree_branch_agrees (hashes : List Hash) (hpos : 1 ≤ hashes.length) (hlt : hashes.length < 2 ^ 62) :
    treeHashArrays P hashes = some (treeHash P hashes) ∧
    (∃ branch leaf, treeBranch P hashes = some branch ∧ branch.length = treeDepth hashes.length ∧
      hashes[0]? = some leaf ∧
      treeHashFromBranch P branch (treeDepth hashes.length) leaf none = some (treeHash P hashes)) ∧
    ∀ hashes' : List Hash, hashes'.length = hashes.length →
      Set.InjOn (fun p : Hash × Hash => hashPair P p.1 p.2) {p | p ∈ treePairs P hashes ∨ p ∈ treePairs P hashes'} →
      treeHashArrays P hashes' = treeHashArrays P hashes → hashes' = hashes := by
  have hne : hashes ≠ [] := length_pos_iff.mp hpos
  have hword : hashes.length < 2 ^ 64 := hlt.trans (by decide)
  have harrays := treeHashArrays_eq (P := P) hne hword
  refine ⟨harrays, ?_, ?_⟩
  · have hbranch := treeBranch_eq (P := P) hne hword
    have hdepth := treeDepth_eq hpos hword
    obtain ⟨hle, hgt⟩ := (Nat.log2_eq_iff (by omega)).mp (rfl : Nat.log2 hashes.length = _)
    rw [hdepth]
    generalize Nat.log2 hashes.length = d at *
    rw [Nat.pow_succ, Nat.mul_comm] at hgt
    have hlevel := level_length (hashPair P) hle (by omega)
    have hlength : (siblings (hashPair P) d (level (hashPair P) (2 * 2 ^ d - hashes.length) hashes)).reverse.length = d :=
      length_reverse.trans (siblings_length (hashPair P) hlevel)
    have hroot := iterate_level (hashPair P) (fun h2 => treePower_fits h2 hword) hle (by omega) (treeHash_root hne hword)
    have hleaf := getElem?_eq_getElem hpos
    have hhead := (level_head (P := P) (show 0 < 2 * 2 ^ d - hashes.length by omega)).trans hleaf
    refine ⟨_, _, hbranch, hlength, hleaf, ?_⟩
    have hclimb := treeHashFromBranch_eq (P := P)
      (siblings (hashPair P) d (level (hashPair P) (2 * 2 ^ d - hashes.length) hashes)).reverse hashes[0]
    rw [hlength, reverse_reverse, siblings_root (hashPair P) hlevel hhead hroot] at hclimb
    exact hclimb
  · intro hashes' hlen hinj hroots
    have hne' : hashes' ≠ [] := length_pos_iff.mp (hlen ▸ hpos)
    rw [harrays, treeHashArrays_eq hne' (hlen ▸ hword), Option.some.injEq] at hroots
    exact treeHash_inj hinj hlen hne' (hlen ▸ hword) (fun p hp => .inr hp) (fun p hp => .inl hp) hroots

end

/-- Three leaves and the same leaves in another order. -/
theorem tree_branch_agrees_three :
    treeHashArrays sumPow.toPrimitives [sumHash [1], sumHash [2], sumHash [3]] ≠
      treeHashArrays sumPow.toPrimitives [sumHash [1], sumHash [3], sumHash [2]] := by
  intro h
  have hinj : ∀ p ∈ treePairs sumPow.toPrimitives [sumHash [1], sumHash [3], sumHash [2]] ++
        treePairs sumPow.toPrimitives [sumHash [1], sumHash [2], sumHash [3]],
      ∀ q ∈ treePairs sumPow.toPrimitives [sumHash [1], sumHash [3], sumHash [2]] ++
        treePairs sumPow.toPrimitives [sumHash [1], sumHash [2], sumHash [3]],
      hashPair sumPow.toPrimitives p.1 p.2 = hashPair sumPow.toPrimitives q.1 q.2 → p = q := by
    decide +kernel
  have hagrees := tree_branch_agrees (P := sumPow.toPrimitives) [sumHash [1], sumHash [3], sumHash [2]] (by decide)
    (by decide)
  have hsame := hagrees.2.2 [sumHash [1], sumHash [2], sumHash [3]] rfl
    (fun p hp q hq e => hinj p (mem_append.mpr hp) q (mem_append.mpr hq) e) h
  have hdiffer : [sumHash [1], sumHash [2], sumHash [3]] ≠ [sumHash [1], sumHash [3], sumHash [2]] := by decide
  exact hdiffer hsame

end Discrete.L2
