import Discrete.L1Encoding.AccountNumber
import Mathlib.Data.List.DropRight

/-!
# Amounts as text (`FormatTools.cpp`)

`formatAmount` prints an amount in coins with two decimals, `parseAmount` reads one. A text denotes
`whole.fraction` or `whole`, spaces around it aside (`Denotes`); `parseAmount` accepts exactly the
texts whose number is a 64-bit count of hundredths, and returns that count (`amount_text_exact`).
-/
namespace Discrete.L1
open List

def numberOfDecimalPlaces : Nat := 2

def point : UInt8 := chr '.'

def zeroDigit : UInt8 := chr '0'

/-- mirrors FormatTools.cpp:118-125 -/
def formatAmount (amount : UInt64) : Bytes :=
  let s := (decimalDigits 19 amount.toNat).map fun d => UInt8.ofNat (48 + d)
  let s := replicate (numberOfDecimalPlaces + 1 - s.length) zeroDigit ++ s
  s.take (s.length - numberOfDecimalPlaces) ++ point :: s.drop (s.length - numberOfDecimalPlaces)

/-- `std::isspace` in the C locale. -/
def isSpace (c : UInt8) : Bool := c == 32 || decide (9 ≤ c ∧ c ≤ 13)

def trim (s : Bytes) : Bytes := (s.dropWhile isSpace).rdropWhile isSpace

/-- The loop over the last character while there are too many decimals. -/
def dropZeros (fraction : Bytes) : Bytes :=
  fraction.take numberOfDecimalPlaces ++ (fraction.drop numberOfDecimalPlaces).rdropWhile (· == zeroDigit)

def decimalValue (s : Bytes) : Nat := beValue 10 (s.map digitVal)

/-- From `strAmount.empty()` on. A stream that reads a `uint64_t` from digits fails on overflow only.
mirrors FormatTools.cpp:157-170, StringTools.h:95-99 -/
def convertAmount (s : Bytes) (fractionSize : Nat) : Option UInt64 :=
  if s = [] then none
  else if s.all isDigit = false then none
  else
    let v := decimalValue (s ++ replicate (numberOfDecimalPlaces - fractionSize) zeroDigit)
    if v < 2 ^ 64 then some (UInt64.ofNat v) else none

/-- mirrors FormatTools.cpp:137-156 -/
def parseAmount (str : Bytes) : Option UInt64 :=
  let s := trim str
  match s.dropWhile (· != point) with
  | [] => convertAmount s 0
  | _ :: fraction =>
    let fraction := dropZeros fraction
    if numberOfDecimalPlaces < fraction.length then none
    else convertAmount (s.takeWhile (· != point) ++ fraction) fraction.length

/-- The text is a decimal number with these digits before and behind its point. -/
structure Denotes (str whole fraction : Bytes) : Prop where
  text : trim str = whole ++ point :: fraction ∨ trim str = whole ∧ fraction = []
  some_digit : whole ++ fraction ≠ []
  digits : ∀ c ∈ whole ++ fraction, isDigit c = true

theorem decimalValue_append (s t : Bytes) :
    decimalValue (s ++ t) = decimalValue s * 10 ^ t.length + decimalValue t := by
  simp only [decimalValue, beValue, map_append, reverse_append, Nat.ofDigits_append, length_reverse, length_map]
  ring

theorem decimalValue_zeros (n : Nat) : decimalValue (replicate n zeroDigit) = 0 := by
  induction n with
  | zero => rfl
  | succ n ih => rw [replicate_succ', decimalValue_append, ih]; rfl

theorem digit_ne {c : UInt8} (h : isDigit c = true) :
    c ≠ point ∧ isSpace c = false ∧ (digitVal c % 10 = 0 ↔ c = zeroDigit) := by
  obtain ⟨d, rfl⟩ := digit_cases h
  fin_cases d <;> decide

/-- The zeros that are dropped, and what stands at the end where decimals are still too many. -/
theorem dropZeros_spec (f : Bytes) : ∃ n, f = dropZeros f ++ replicate n zeroDigit ∧ (dropZeros f = [] → f = []) ∧
    (numberOfDecimalPlaces < (dropZeros f).length → ∃ l c, dropZeros f = l ++ [c] ∧ c ≠ zeroDigit) := by
  generalize hg : f.take numberOfDecimalPlaces = g
  generalize he : f.drop numberOfDecimalPlaces = e
  have hd : dropZeros f = g ++ e.rdropWhile (· == zeroDigit) := by rw [dropZeros, hg, he]
  have hzeros : e.rtakeWhile (· == zeroDigit) = replicate (e.rtakeWhile (· == zeroDigit)).length zeroDigit := by
    refine eq_replicate_iff.mpr ⟨rfl, fun c hc => ?_⟩
    have hp : (c == zeroDigit) = true := mem_rtakeWhile_imp (p := (· == zeroDigit)) hc
    exact beq_iff_eq.mp hp
  refine ⟨(e.rtakeWhile (· == zeroDigit)).length, ?_, fun hnil => ?_, fun hlen => ?_⟩
  · rw [hd, ← hzeros, append_assoc, rdropWhile_append_rtakeWhile, ← hg, ← he, take_append_drop]
  · rw [hd, append_eq_nil_iff, ← hg, take_eq_nil_iff] at hnil
    exact hnil.1.resolve_left (by decide)
  · have hne : e.rdropWhile (· == zeroDigit) ≠ [] := by
      intro hnil
      rw [hd, hnil, append_nil, ← hg, length_take] at hlen
      omega
    refine ⟨g ++ (e.rdropWhile (· == zeroDigit)).dropLast, (e.rdropWhile (· == zeroDigit)).getLast hne, ?_, ?_⟩
    · rw [hd, append_assoc, dropLast_append_getLast]
    · simpa using rdropWhile_last_not _ _ hne

/-- What is left has the decimals of the coin iff the number is a count of the smallest unit, and
then denotes that count. -/
theorem dropZeros_value {w f : Bytes} (hf : ∀ c ∈ f, isDigit c = true) (a : Nat) :
    (dropZeros f).length ≤ numberOfDecimalPlaces ∧ decimalValue (w ++ dropZeros f ++
        replicate (numberOfDecimalPlaces - (dropZeros f).length) zeroDigit) = a ↔
      decimalValue (w ++ f) * 10 ^ numberOfDecimalPlaces = a * 10 ^ f.length := by
  obtain ⟨n, hfd, -, hlast⟩ := dropZeros_spec f
  generalize dropZeros f = d at hfd hlast
  subst hfd
  have hright : decimalValue (w ++ (d ++ replicate n zeroDigit)) * 10 ^ numberOfDecimalPlaces =
      a * 10 ^ (d ++ replicate n zeroDigit).length ↔
      decimalValue (w ++ d) * 10 ^ numberOfDecimalPlaces = a * 10 ^ d.length := by
    rw [← append_assoc, decimalValue_append, decimalValue_zeros, length_append, length_replicate, Nat.add_zero,
      Nat.pow_add, Nat.mul_right_comm, ← Nat.mul_assoc, Nat.mul_left_inj (by positivity)]
  rw [hright]
  by_cases hlen : d.length ≤ numberOfDecimalPlaces
  · have hpow : 10 ^ numberOfDecimalPlaces = 10 ^ (numberOfDecimalPlaces - d.length) * 10 ^ d.length := by
      rw [← Nat.pow_add, Nat.sub_add_cancel hlen]
    rw [decimalValue_append, decimalValue_zeros, length_replicate, Nat.add_zero, hpow, ← Nat.mul_assoc,
      Nat.mul_left_inj (by positivity)]
    exact and_iff_right hlen
  · -- the last digit is none of the zeros, so the number is no multiple of ten
    refine iff_of_false (fun h => hlen h.1) fun h => ?_
    obtain ⟨l, c, rfl, hc⟩ := hlast (by omega)
    rw [length_append, length_singleton] at hlen
    obtain ⟨k, hk⟩ := Nat.exists_eq_add_of_le (show numberOfDecimalPlaces ≤ l.length by omega)
    have hpow : a * 10 ^ (l ++ [c]).length = a * 10 ^ k * 10 * 10 ^ numberOfDecimalPlaces := by
      rw [length_append, length_singleton, hk]
      ring
    rw [hpow, Nat.mul_left_inj (by positivity), ← append_assoc, decimalValue_append] at h
    have hmod := congrArg (· % 10) h
    simp only [length_singleton, Nat.pow_one, Nat.mul_add_mod', Nat.mul_mod_left] at hmod
    exact hc ((digit_ne (hf c (by simp))).2.2.mp (by simpa [decimalValue, beValue] using hmod))

theorem convertAmount_eq_some {s : Bytes} {n : Nat} {a : UInt64} : convertAmount s n = some a ↔
    s ≠ [] ∧ (∀ c ∈ s, isDigit c = true) ∧
      decimalValue (s ++ replicate (numberOfDecimalPlaces - n) zeroDigit) = a.toNat := by
  unfold convertAmount
  have hlt := a.toNat_lt
  split
  · simp_all
  split
  · simp_all
  · rename_i hne hall
    rw [Bool.not_eq_false, List.all_eq_true] at hall
    dsimp only
    split
    · rename_i hfit
      rw [Option.some.injEq, ← UInt64.toNat_inj, UInt64.toNat_ofNat', Nat.mod_eq_of_lt hfit]
      exact ⟨fun h => ⟨hne, hall, h⟩, fun h => h.2.2⟩
    · simp only [reduceCtorEq, false_iff]
      rintro ⟨-, -, h⟩
      omega

theorem parseAmount_split {str w f : Bytes} (hs : trim str = w ++ point :: f ∨ trim str = w ∧ f = []) (hw : point ∉ w) :
    parseAmount str = if numberOfDecimalPlaces < (dropZeros f).length then none
      else convertAmount (w ++ dropZeros f) (dropZeros f).length := by
  have hall : ∀ c ∈ w, (c != point) = true := fun c hc => bne_iff_ne.mpr fun e => hw (e ▸ hc)
  rcases hs with hs | ⟨rfl, rfl⟩
  · rw [parseAmount, hs, dropWhile_append_of_pos hall, takeWhile_append_of_pos hall]
    simp
  · rw [parseAmount, dropWhile_eq_nil_iff.mpr hall]
    simp [dropZeros]

theorem parseAmount_digits {str w f : Bytes} {a : UInt64} (hs : trim str = w ++ point :: f ∨ trim str = w ∧ f = [])
    (hw : point ∉ w) : parseAmount str = some a ↔ w ++ f ≠ [] ∧ (∀ c ∈ w ++ f, isDigit c = true) ∧
      decimalValue (w ++ f) * 10 ^ numberOfDecimalPlaces = a.toNat * 10 ^ f.length := by
  obtain ⟨n, hfd, hnil, -⟩ := dropZeros_spec f
  have hmem : ∀ c, c ∈ f ↔ c ∈ dropZeros f ∨ n ≠ 0 ∧ c = zeroDigit := by
    intro c
    rw [← mem_replicate, ← mem_append, ← hfd]
  rw [parseAmount_split hs hw, Option.ite_none_left_eq_some, convertAmount_eq_some, Nat.not_lt]
  constructor
  · rintro ⟨hle, hne, hd, hv⟩
    have hf : ∀ c ∈ f, isDigit c = true := by
      intro c hc
      rcases (hmem c).mp hc with hc | ⟨-, rfl⟩
      · exact hd c (mem_append_right w hc)
      · decide
    refine ⟨?_, ?_, (dropZeros_value hf _).mp ⟨hle, hv⟩⟩
    · intro hno
      rw [append_eq_nil_iff] at hno
      exact hne (by rw [hno.1, hno.2]; rfl)
    · intro c hc
      rcases mem_append.mp hc with hc | hc
      · exact hd c (mem_append_left _ hc)
      · exact hf c hc
  · rintro ⟨hne, hd, hv⟩
    obtain ⟨hle, hv⟩ := (dropZeros_value (fun c hc => hd c (mem_append_right w hc)) _).mpr hv
    refine ⟨hle, ?_, ?_, hv⟩
    · intro hno
      rw [append_eq_nil_iff] at hno
      exact hne (by rw [hno.1, hnil hno.2]; rfl)
    · intro c hc
      rcases mem_append.mp hc with hc | hc
      · exact hd c (mem_append_left f hc)
      · exact hd c (mem_append_right w ((hmem c).mpr (.inl hc)))

theorem amount_text_exact :
    (∀ amount, parseAmount (formatAmount amount) = some amount) ∧
      ∀ str amount, parseAmount str = some amount ↔ ∃ whole fraction, Denotes str whole fraction ∧
        decimalValue (whole ++ fraction) * 10 ^ numberOfDecimalPlaces = amount.toNat * 10 ^ fraction.length := by
  constructor
  · intro amount
    have hlt := amount.toNat_lt
    obtain ⟨hvalue, hdigits⟩ := decimalDigits_text (show amount.toNat < 10 ^ (19 + 1) by omega)
    rw [formatAmount]
    generalize (decimalDigits 19 amount.toNat).map (fun d => UInt8.ofNat (48 + d)) = t at hvalue hdigits
    generalize hs : replicate (numberOfDecimalPlaces + 1 - t.length) zeroDigit ++ t = s
    have hlen : numberOfDecimalPlaces < s.length := by
      rw [← hs, length_append, length_replicate]
      omega
    have hall : ∀ c ∈ s, isDigit c = true := by
      intro c hc
      rw [← hs] at hc
      rcases mem_append.mp hc with hc | hc
      · rw [eq_of_mem_replicate hc]
        decide
      · exact hdigits c hc
    generalize hk : s.length - numberOfDecimalPlaces = k
    have htrim : trim (s.take k ++ point :: s.drop k) = s.take k ++ point :: s.drop k := by
      have hspace : ∀ c ∈ s.take k ++ point :: s.drop k, ¬ isSpace c = true := by
        intro c hc
        rw [mem_append, mem_cons] at hc
        rcases hc with hc | rfl | hc
        · simp [(digit_ne (hall c (mem_of_mem_take hc))).2.1]
        · decide
        · simp [(digit_ne (hall c (mem_of_mem_drop hc))).2.1]
      rw [trim, dropWhile_eq_self_iff.mpr fun hl => hspace _ (getElem_mem hl)]
      exact rdropWhile_eq_self_iff.mpr fun hl => hspace _ (getLast_mem hl)
    refine (parseAmount_digits (.inl htrim) fun hp => ?_).mpr ?_
    · exact (digit_ne (hall point (mem_of_mem_take hp))).1 rfl
    · rw [take_append_drop, length_drop, show s.length - k = numberOfDecimalPlaces by omega, ← hs, decimalValue_append,
        decimalValue_zeros, Nat.zero_mul, Nat.zero_add, decimalValue, hvalue, hs]
      exact ⟨ne_nil_of_length_pos (by omega), hall, rfl⟩
  · intro str amount
    constructor
    · intro h
      by_cases hp : point ∈ trim str
      · obtain ⟨w, f, htext, hw⟩ := eq_append_cons_of_mem hp
        obtain ⟨hne, hd, hv⟩ := (parseAmount_digits (.inl htext) hw).mp h
        exact ⟨w, f, ⟨.inl htext, hne, hd⟩, hv⟩
      · obtain ⟨hne, hd, hv⟩ := (parseAmount_digits (.inr ⟨rfl, rfl⟩) hp).mp h
        exact ⟨trim str, [], ⟨.inr ⟨rfl, rfl⟩, hne, hd⟩, hv⟩
    · rintro ⟨w, f, ⟨htext, hne, hd⟩, hv⟩
      refine (parseAmount_digits htext fun hp => ?_).mpr ⟨hne, hd, hv⟩
      exact (digit_ne (hd point (mem_append_left f hp))).1 rfl

end Discrete.L1
