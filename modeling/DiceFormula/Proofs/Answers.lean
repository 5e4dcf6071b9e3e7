import DiceFormula.CommandLine.Answers
import Mathlib.Data.FinEnum

/-!
# Answers in either case

Two ways to fold letters, byte by byte and character by character, are compared on the few words
that mean yes. Each of them stands for a list of spellings.
-/

namespace DiceFormula.CommandLine

/-! ## 1. Padding -/

theorem dropWhile_padded {front rest : Bytes} (hfront : ∀ b ∈ front, isPadding b = true)
    (hrest : ∀ b ∈ rest.head?, isPadding b = false) :
    (front ++ rest).dropWhile isPadding = rest := by
  rw [List.dropWhile_append_of_pos hfront]
  cases rest with
  | nil => rfl
  | cons b rest =>
    have hb : isPadding b = false := hrest b rfl
    rw [List.dropWhile_cons, hb, if_neg Bool.false_ne_true]

/-- What is between the padding is all that is left, if it has none itself. -/
theorem trim_padded {before core after : Bytes} (hbefore : ∀ b ∈ before, isPadding b = true)
    (hcore : ∀ b ∈ core, isPadding b = false) (hafter : ∀ b ∈ after, isPadding b = true) :
    trim (before ++ core ++ after) = core := by
  have hreverse : ∀ b ∈ after.reverse, isPadding b = true :=
    fun b hb => hafter b (List.mem_reverse.mp hb)
  cases hfirst : core with
  | nil =>
    have hall : ∀ b ∈ before ++ after, isPadding b = true :=
      fun b hb => (List.mem_append.mp hb).elim (hbefore b) (hafter b)
    have hempty : (before ++ after ++ []).dropWhile isPadding = [] :=
      dropWhile_padded hall fun b hb => nomatch hb
    rw [List.append_nil] at hempty
    rw [List.append_nil, trim, hempty]
    rfl
  | cons b rest =>
    rw [← hfirst, trim, List.append_assoc, dropWhile_padded hbefore, List.reverse_append,
      dropWhile_padded hreverse, List.reverse_reverse]
    · intro c hc
      exact hcore c (List.mem_reverse.mp (List.mem_of_mem_head? hc))
    · intro c hc
      rw [hfirst] at hc
      exact hcore c (hfirst ▸ List.mem_of_mem_head? hc)

theorem exists_padding (line : Bytes) :
    ∃ before after : Bytes, line = before ++ trim line ++ after ∧
      (∀ b ∈ before, isPadding b = true) ∧ ∀ b ∈ after, isPadding b = true := by
  have hall : ∀ {b : UInt8} {bytes : Bytes}, b ∈ bytes.takeWhile isPadding → isPadding b = true :=
    fun hb => (List.all_eq_true.mp (List.all_takeWhile)) _ hb
  refine ⟨line.takeWhile isPadding,
    ((line.dropWhile isPadding).reverse.takeWhile isPadding).reverse, ?_, fun b hb => hall hb,
    fun b hb => hall (List.mem_reverse.mp hb)⟩
  rw [trim, List.append_assoc, ← List.reverse_append, List.takeWhile_append_dropWhile,
    List.reverse_reverse, List.takeWhile_append_dropWhile]

/-! ## 2. Letters -/

theorem toNat_ofNat_of_lt {n : Nat} (h : n < 0xD800) : (Char.ofNat n).toNat = n := by
  rw [Char.ofNat, dif_pos (Or.inl h)]
  rfl

theorem le_iff_toNat_le (c d : Char) : c ≤ d ↔ c.toNat ≤ d.toNat :=
  UInt32.le_iff_toNat_le

theorem toNat_smallLetter (c : Char) :
    (smallLetter c).toNat =
      if 65 ≤ c.toNat ∧ c.toNat ≤ 90 ∨ 192 ≤ c.toNat ∧ c.toNat ≤ 222 ∧ c.toNat ≠ 215 ∨
          1040 ≤ c.toNat ∧ c.toNat ≤ 1071 then c.toNat + 32
      else if 1024 ≤ c.toNat ∧ c.toNat ≤ 1039 then c.toNat + 80
      else c.toNat := by
  unfold smallLetter
  simp only [le_iff_toNat_le, ne_eq, ← Char.toNat_inj, Char.reduceToNat]
  split
  next => exact toNat_ofNat_of_lt (by omega)
  next =>
    split
    next => exact toNat_ofNat_of_lt (by omega)
    next => rfl

/-! ## 3. Spellings -/

/-- All ways to write a word, given the ways to write each of its letters. -/
def spellings {α : Type} (variants : α → List α) : List α → List (List α)
  | [] => [[]]
  | x :: word => (variants x).flatMap fun y => (spellings variants word).map (y :: ·)

theorem mem_spellings_iff {α : Type} {f : α → α} {variants : α → List α} {word text : List α}
    (h : ∀ x ∈ word, ∀ y, f y = x ↔ y ∈ variants x) :
    text ∈ spellings variants word ↔ text.map f = word := by
  induction word generalizing text with
  | nil => rw [spellings, List.mem_singleton, List.map_eq_nil_iff]
  | cons x word ih =>
    obtain ⟨hx, hword⟩ := List.forall_mem_cons.mp h
    rw [List.map_eq_cons_iff, spellings, List.mem_flatMap]
    constructor
    · rintro ⟨y, hy, htext⟩
      obtain ⟨rest, hrest, rfl⟩ := List.mem_map.mp htext
      exact ⟨y, rest, rfl, (hx y).mpr hy, (ih hword).mp hrest⟩
    · rintro ⟨y, rest, rfl, hy, hrest⟩
      exact ⟨y, (hx y).mp hy, List.mem_map.mpr ⟨rest, (ih hword).mpr hrest, rfl⟩⟩

/-- A small letter and its capital. -/
def letterVariants (c : Char) : List Char :=
  [c, Char.ofNat (c.toNat - 32)]

theorem smallLetter_eq_iff {word : List Char} (hword : word ∈ assentWords) :
    ∀ c ∈ word, ∀ d, smallLetter d = c ↔ d ∈ letterVariants c := by
  intro c hc d
  have hnumbers : (assentWords.all fun word => word.all fun c =>
      decide (c.toNat ∈ [121, 101, 115, 1076, 1072])) = true := by decide
  simp only [List.all_eq_true, decide_eq_true_eq] at hnumbers
  have hnumber := hnumbers word hword c hc
  simp only [List.mem_cons, List.not_mem_nil, or_false] at hnumber
  rw [letterVariants, List.mem_cons, List.mem_singleton, ← Char.toNat_inj, ← Char.toNat_inj,
    ← Char.toNat_inj, toNat_smallLetter, toNat_ofNat_of_lt (by omega)]
  split
  next => omega
  next => split <;> omega

/-- A byte and, for a small letter of ASCII, its capital. -/
def byteVariants (b : UInt8) : List UInt8 :=
  if isLower b then [b, b - 32] else [b]

theorem lower_eq_iff {b : UInt8} (hb : isUpper b = false) (c : UInt8) :
    lower c = b ↔ c ∈ byteVariants b := by
  have hcapital : ∀ c, isUpper c = true → isLower (lower c) = true ∧ lower c - 32 = c := by
    decide +kernel
  have hsmall : ∀ b, isLower b = true → lower (b - 32) = b := by decide +kernel
  have hkept : ∀ c, isUpper c = false → lower c = c := fun c hc => by
    rw [lower, hc, if_neg Bool.false_ne_true]
  unfold byteVariants
  constructor
  · rintro rfl
    cases hc : isUpper c with
    | true =>
      obtain ⟨hlower, hback⟩ := hcapital c hc
      rw [if_pos hlower, hback]
      exact List.mem_cons_of_mem _ (List.mem_singleton_self c)
    | false =>
      rw [hkept c hc]
      split <;> exact List.mem_cons_self
  · intro hc
    split at hc
    next hlower =>
      obtain rfl | hc := List.mem_cons.mp hc
      · exact hkept c hb
      · rw [List.mem_singleton.mp hc]
        exact hsmall b hlower
    next =>
      rw [List.mem_singleton.mp hc]
      exact hkept b hb

/-! ## 4. Answers -/

/-- The texts that mean yes. -/
def assentSpellings : List Bytes :=
  (assentWords.flatMap (spellings letterVariants)).map fun word =>
    word.flatMap String.utf8EncodeChar

/-- The texts that are recognised. -/
def recognised : List Bytes :=
  affirmations.flatMap (spellings byteVariants)

theorem assentSpellings_perm : assentSpellings.Perm (recognised ++ missedAssents) := by
  decide +kernel

theorem isAssent_iff (line : Bytes) : IsAssent line ↔ trim line ∈ assentSpellings := by
  have hinner : ∀ text ∈ assentSpellings, ∀ b ∈ text, isPadding b = false := by
    have hall : (assentSpellings.all fun text => text.all fun b => !isPadding b) = true := by
      decide +kernel
    simpa only [List.all_eq_true, Bool.not_eq_true'] using hall
  constructor
  · rintro ⟨before, after, answer, rfl, hbefore, hafter, hanswer⟩
    have hspelled : bytes answer ∈ assentSpellings := by
      refine List.mem_map.mpr ⟨answer.toList, List.mem_flatMap.mpr ⟨_, hanswer, ?_⟩, rfl⟩
      exact (mem_spellings_iff (smallLetter_eq_iff hanswer)).mpr rfl
    rw [trim_padded hbefore (hinner _ hspelled) hafter]
    exact hspelled
  · intro hspelled
    obtain ⟨letters, hletters, htext⟩ := List.mem_map.mp hspelled
    obtain ⟨word, hword, hletters⟩ := List.mem_flatMap.mp hletters
    obtain ⟨before, after, hline, hbefore, hafter⟩ := exists_padding line
    refine ⟨before, after, String.ofList letters, ?_, hbefore, hafter, ?_⟩
    · rw [bytes, String.toList_ofList, htext]
      exact hline
    · rw [String.toList_ofList, (mem_spellings_iff (smallLetter_eq_iff hword)).mp hletters]
      exact hword

theorem isAffirmative_iff (line : Bytes) :
    isAffirmative (some line) = true ↔ trim line ∈ recognised := by
  have hfold : ∀ word ∈ affirmations, ∀ b ∈ word, ∀ c, lower c = b ↔ c ∈ byteVariants b := by
    have hsmall : (affirmations.all fun word => word.all fun b => !isUpper b) = true := by
      decide +kernel
    simp only [List.all_eq_true, Bool.not_eq_true'] at hsmall
    exact fun word hword b hb => lower_eq_iff (hsmall word hword b hb)
  rw [isAffirmative, List.contains_iff_mem, recognised, List.mem_flatMap]
  constructor
  · intro hword
    exact ⟨_, hword, (mem_spellings_iff (hfold _ hword)).mpr rfl⟩
  · rintro ⟨word, hword, hspelled⟩
    rw [(mem_spellings_iff (hfold _ hword)).mp hspelled]
    exact hword

/-- An answer is taken for what it means, unless it is a Cyrillic word with a capital. -/
theorem isAffirmative_iff_isAssent (line : Bytes) :
    (isAffirmative (some line) = true ↔ IsAssent line) ↔ trim line ∉ missedAssents := by
  have hdisjoint : ∀ text ∈ missedAssents, text ∉ recognised := by decide +kernel
  rw [isAffirmative_iff, isAssent_iff, assentSpellings_perm.mem_iff, List.mem_append]
  constructor
  · intro h hmissed
    exact hdisjoint _ hmissed (h.mpr (.inr hmissed))
  · intro hmissed
    rw [or_iff_left hmissed]

/-- A capital letter is an answer that is not taken for what it means. -/
theorem not_isAffirmative_of_capital :
    IsAssent (bytes "Д") ∧ isAffirmative (some (bytes "Д")) = false :=
  ⟨⟨[], [], "Д", rfl, List.forall_mem_nil _, List.forall_mem_nil _, by decide⟩, by decide⟩

end DiceFormula.CommandLine
