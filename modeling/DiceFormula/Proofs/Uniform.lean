import DiceFormula.Proofs.Searching
import DiceFormula.Source.Words
import Mathlib.Data.Set.Card

/-!
# Seeded draws are uniform

The words that belong to one number of a range are those whose multiples by its size lie in one
stretch of `2 ^ 64` numbers, less the remainder of `2 ^ 64` by the size. What is left of the stretch
is itself a multiple of the size, so that it holds equally many words wherever it begins.
-/

namespace DiceFormula

/-! ## 1. Bits and numbers -/

namespace Word

theorem bits_add (a b : Int) : bits (a + b) = bits a + bits b := by
  rw [bits, Int64.ofInt_add, Int64.toUInt64_add, bits, bits]

theorem bits_sub (a b : Int) : bits (a - b) = bits a - bits b := by
  rw [bits, Int64.ofInt_sub, Int64.toUInt64_sub, bits, bits]

theorem bits_natCast (n : Nat) : bits n = n.toUInt64 := by
  rw [bits, Int64.ofInt_eq_ofNat]
  rfl

theorem toNat_bits_of_lt {n : Nat} (h : n < UInt64.size) : (bits n).toNat = n := by
  rw [bits_natCast]
  exact UInt64.toNat_ofNat_of_lt' h

theorem signed_bits {i : Int} (h : Fits i) : signed (bits i) = i := by
  obtain ⟨hleast, hgreatest⟩ := h
  unfold least at hleast
  unfold greatest at hgreatest
  rw [signed, bits, Int64.toInt64_toUInt64]
  exact Int64.toInt_ofInt_of_le (by omega) (by omega)

/-- Bits that are added to those of a number stand for the sum, if it lies in the range. -/
theorem signed_toUInt64_add_bits {n : Nat} {i : Int} (h : Fits (i + n)) :
    signed (n.toUInt64 + bits i) = i + n := by
  rw [← bits_natCast, ← bits_add, Int.add_comm]
  exact signed_bits h

end Word

namespace Uniform

variable {lower upper : Int} {size : Nat}

/-! ## 2. What a word stands for -/

theorem accepts_iff (hsize : 0 < size) (word : UInt64) :
    accepts size word = true ↔
      (UInt64.size - size) % size ≤ (word.toNat * size) % UInt64.size := by
  have hrest : (UInt64.size - size) % size < size := Nat.mod_lt _ hsize
  unfold accepts
  dsimp only
  split
  next => exact decide_eq_true_iff
  next hlow => exact ⟨fun _ => by omega, fun _ => rfl⟩

theorem accepts_full (word : UInt64) : accepts UInt64.size word = true := by
  rw [accepts_iff (by decide), Nat.sub_self, Nat.zero_mod]
  exact Nat.zero_le _

theorem place_full (word : UInt64) : place UInt64.size word = word.toNat :=
  Nat.mul_div_cancel _ (by decide)

/-- The high half of the product of a word and a size is less than the size. -/
theorem place_lt (hsize : 0 < size) (word : UInt64) : place size word < size := by
  unfold place
  rw [Nat.div_lt_iff_lt_mul (by decide), Nat.mul_comm size]
  exact Nat.mul_lt_mul_of_pos_right word.toNat_lt hsize

theorem rangeSize_pos (lower upper : Int) : 0 < rangeSize lower upper :=
  Nat.succ_pos _

/-- The width of a range is one less than its size. -/
theorem toNat_width (h : lower ≤ upper) (hsize : rangeSize lower upper ≤ UInt64.size) :
    (Word.bits upper - Word.bits lower).toNat + 1 = rangeSize lower upper := by
  unfold rangeSize at hsize ⊢
  have hwidth : upper - lower = ((upper - lower).toNat : Int) := by omega
  rw [← Word.bits_sub, hwidth, Word.toNat_bits_of_lt (by omega)]
  omega

theorem rangeSize_le (hlower : Word.Fits lower) (hupper : Word.Fits upper) :
    rangeSize lower upper ≤ UInt64.size := by
  have hleast : -9223372036854775808 ≤ lower := hlower.1
  have hgreatest : upper ≤ 9223372036854775807 := hupper.2
  have hsize : UInt64.size = 18446744073709551616 := rfl
  unfold rangeSize
  omega

theorem add_place_bounds (h : lower ≤ upper) (word : UInt64) :
    lower ≤ lower + place (rangeSize lower upper) word ∧
      lower + place (rangeSize lower upper) word ≤ upper := by
  have hplace := place_lt (rangeSize_pos lower upper) word
  unfold rangeSize at hplace ⊢
  omega

theorem fits_add_place (hlower : Word.Fits lower) (hupper : Word.Fits upper) (h : lower ≤ upper)
    (word : UInt64) : Word.Fits (lower + place (rangeSize lower upper) word) :=
  ⟨hlower.1.trans (add_place_bounds h word).1, (add_place_bounds h word).2.trans hupper.2⟩

theorem rejects_iff {size : UInt64} (hsize : 0 < size.toNat) (word : UInt64) :
    (word * size < size ∧ word * size < -size % size) ↔ ¬ accepts size.toNat word = true := by
  have hrest : (-size % size).toNat = (UInt64.size - size.toNat) % size.toNat := by
    have hlt : UInt64.size - size.toNat < UInt64.size := Nat.sub_lt (by decide) hsize
    rw [UInt64.toNat_mod, UInt64.toNat_neg, Nat.mod_eq_of_lt hlt]
  have hlow : (word * size).toNat = word.toNat * size.toNat % UInt64.size := UInt64.toNat_mul _ _
  have hbelow : (UInt64.size - size.toNat) % size.toNat < size.toNat := Nat.mod_lt _ hsize
  rw [accepts_iff hsize, UInt64.lt_iff_toNat_lt, UInt64.lt_iff_toNat_lt, hrest, hlow]
  omega

theorem high_eq (size word : UInt64) :
    ((word.toNat * size.toNat) >>> 64).toUInt64 = (place size.toNat word).toUInt64 := by
  rw [Nat.shiftRight_eq_div_pow]
  rfl

/-- The arithmetic of a machine, which wraps around, comes to the same as the arithmetic of
numbers. -/
theorem number?_eq (hlower : Word.Fits lower) (hupper : Word.Fits upper) (h : lower ≤ upper)
    (word : UInt64) :
    number? lower upper word =
      if accepts (rangeSize lower upper) word = true then
        some (lower + place (rangeSize lower upper) word)
      else none := by
  have hfits := fits_add_place hlower hupper h word
  have hlimit := rangeSize_le hlower hupper
  have hwidth := toNat_width h hlimit
  have hpos := rangeSize_pos lower upper
  unfold number?
  dsimp only
  split
  next hfull =>
    have hsize : rangeSize lower upper = UInt64.size := by
      rw [← hwidth, hfull]
      rfl
    rw [hsize, place_full] at hfits
    have hsigned := Word.signed_toUInt64_add_bits hfits
    rw [Nat.toUInt64_eq, UInt64.ofNat_toNat] at hsigned
    rw [hsize, if_pos (accepts_full word), place_full, hsigned]
  next hpartial =>
    have hsize : (Word.bits upper - Word.bits lower + 1).toNat = rangeSize lower upper := by
      have hne : rangeSize lower upper ≠ UInt64.size := by
        intro hfull
        exact hpartial (UInt64.toNat_inj.mp (Nat.succ.inj (hwidth.trans hfull)))
      rw [UInt64.toNat_add, UInt64.toNat_one, hwidth]
      exact Nat.mod_eq_of_lt (Nat.lt_of_le_of_ne hlimit hne)
    rw [high_eq, hsize, Word.signed_toUInt64_add_bits hfits]
    by_cases haccepted : accepts (rangeSize lower upper) word = true
    · rw [if_pos haccepted, if_neg]
      rw [rejects_iff (hsize ▸ hpos), hsize]
      exact not_not.mpr haccepted
    · rw [if_neg haccepted, if_pos]
      rw [rejects_iff (hsize ▸ hpos), hsize]
      exact haccepted

theorem number?_eq_some_iff (hlower : Word.Fits lower) (hupper : Word.Fits upper) (h : lower ≤ upper)
    {word : UInt64} {value : Int} :
    number? lower upper word = some value ↔ accepts (rangeSize lower upper) word = true ∧
      lower + place (rangeSize lower upper) word = value := by
  rw [number?_eq hlower hupper h]
  by_cases haccepted : accepts (rangeSize lower upper) word = true
  · rw [if_pos haccepted, Option.some.injEq, and_iff_right haccepted]
  · rw [if_neg haccepted]
    exact ⟨fun hnone => (nomatch hnone), fun hsome => absurd hsome.1 haccepted⟩

theorem bounds_of_number? (hlower : Word.Fits lower) (hupper : Word.Fits upper) (h : lower ≤ upper)
    {word : UInt64} {value : Int} (hnumber : number? lower upper word = some value) :
    lower ≤ value ∧ value ≤ upper := by
  obtain ⟨-, rfl⟩ := (number?_eq_some_iff hlower hupper h).mp hnumber
  exact add_place_bounds h word

/-! ## 3. Counting words -/

/-- A place belongs to the words whose multiples lie in one stretch of numbers. -/
theorem accepts_and_place_eq_iff (hsize : 0 < size) {word : UInt64} {k : Nat} :
    accepts size word = true ∧ place size word = k ↔
      k * UInt64.size + (UInt64.size - size) % size ≤ word.toNat * size ∧
        word.toNat * size < (k + 1) * UInt64.size := by
  rw [accepts_iff hsize, place]
  have hwords : UInt64.size = 18446744073709551616 := rfl
  rw [hwords]
  omega

/-- The stretch is exactly as long as so many multiples are apart. -/
theorem rest_add_mul_div (hsize : size ≤ UInt64.size) :
    (UInt64.size - size) % size + UInt64.size / size * size = UInt64.size := by
  rw [← Nat.mod_eq_sub_mod hsize, Nat.mul_comm]
  exact Nat.mod_add_div _ _

theorem le_mul_iff (hsize : 0 < size) (bound n : Nat) :
    bound ≤ n * size ↔ (bound + (size - 1)) / size ≤ n := by
  rw [Nat.div_le_iff_le_mul_add_pred hsize, Nat.mul_comm]
  omega

theorem mul_lt_iff (hsize : 0 < size) (bound count n : Nat) :
    n * size < bound + count * size ↔ n < (bound + (size - 1)) / size + count := by
  have hshift : (bound + count * size + (size - 1)) / size = (bound + (size - 1)) / size + count := by
    rw [Nat.add_right_comm, Nat.add_mul_div_right _ _ hsize]
  rw [← Nat.not_le, le_mul_iff hsize, hshift, Nat.not_le]

theorem ncard_words {first count : Nat} (h : first + count ≤ UInt64.size) :
    {word : UInt64 | first ≤ word.toNat ∧ word.toNat < first + count}.ncard = count := by
  have htoNat : ∀ i < count, (first + i).toUInt64.toNat = first + i :=
    fun i hi => UInt64.toNat_ofNat_of_lt' (by omega)
  apply Set.ncard_eq_of_bijective fun i _ => (first + i).toUInt64
  · rintro word ⟨hfirst, hlast⟩
    refine ⟨word.toNat - first, by omega, UInt64.toNat_inj.mp ?_⟩
    rw [htoNat _ (by omega)]
    omega
  · intro i hi
    rw [Set.mem_ofPred_eq, htoNat i hi]
    omega
  · intro i j hi hj hij
    have hnumbers := congrArg UInt64.toNat hij
    rw [htoNat i hi, htoNat j hj] at hnumbers
    omega

/-- Every place of a range belongs to equally many words. -/
theorem ncard_place (hpos : 0 < size) (hlimit : size ≤ UInt64.size) {k : Nat} (hk : k < size) :
    {word : UInt64 | accepts size word = true ∧ place size word = k}.ncard = UInt64.size / size := by
  have hcount : 0 < UInt64.size / size := Nat.div_pos hlimit hpos
  have hstretch := rest_add_mul_div hlimit
  generalize hbound : k * UInt64.size + (UInt64.size - size) % size = bound
  have hend : (k + 1) * UInt64.size = bound + UInt64.size / size * size := by
    rw [Nat.add_mul, Nat.one_mul, ← hbound]
    omega
  have hwords : ∀ word : UInt64, (accepts size word = true ∧ place size word = k) ↔
      (bound + (size - 1)) / size ≤ word.toNat ∧
        word.toNat < (bound + (size - 1)) / size + UInt64.size / size := by
    intro word
    rw [accepts_and_place_eq_iff hpos, hbound, hend, le_mul_iff hpos, mul_lt_iff hpos]
  have hlast : (bound + (size - 1)) / size + UInt64.size / size ≤ UInt64.size := by
    -- The last of the words has a multiple below that of `2 ^ 64`.
    have hmul := (mul_lt_iff hpos bound (UInt64.size / size) _).mpr
      (Nat.sub_one_lt (Nat.add_pos_right _ hcount).ne')
    rw [← hend] at hmul
    have hle : (k + 1) * UInt64.size ≤ UInt64.size * size :=
      (Nat.mul_le_mul_right _ hk).trans_eq (Nat.mul_comm _ _)
    exact Nat.le_of_pred_lt (Nat.lt_of_mul_lt_mul_right (Nat.lt_of_lt_of_le hmul hle))
  simp only [hwords]
  exact ncard_words hlast

theorem ncard_number? (hlower : Word.Fits lower) (hupper : Word.Fits upper) {value : Int}
    (hvalue : lower ≤ value) (hvalue' : value ≤ upper) :
    {word : UInt64 | number? lower upper word = some value}.ncard =
      UInt64.size / rangeSize lower upper := by
  have hk : (value - lower).toNat < rangeSize lower upper := by
    unfold rangeSize
    omega
  rw [← ncard_place (rangeSize_pos lower upper) (rangeSize_le hlower hupper) hk]
  congr 1
  ext word
  rw [Set.mem_ofPred_eq, Set.mem_ofPred_eq, number?_eq_some_iff hlower hupper (hvalue.trans hvalue')]
  apply and_congr_right
  intro _
  omega

/-! ## 4. Draws -/

/-- The full range needs no rule of its own: none of its words is rejected. -/
theorem draw_eq (lower upper : Int) (generator : Twister) :
    draw lower upper generator = (nextAccepted (rangeSize lower upper) generator).map
      fun found => (lower + place (rangeSize lower upper) found.1, found.2) := by
  unfold draw rangeSize
  dsimp only
  split
  next hfull =>
    have hfirst : AcceptedAfter UInt64.size generator 0 :=
      ⟨fun i hi => absurd hi (Nat.not_lt_zero i), accepts_full _⟩
    have hnext : nextAccepted UInt64.size generator = some generator.next := by
      rw [nextAccepted_of_acceptedAfter hfirst, answerAt, leftAfter, leftAfter, leftAfter]
    rw [hfull, hnext, Option.map_some, place_full]
  next =>
    cases nextAccepted ((upper - lower).toNat + 1) generator <;> rfl

theorem number?_eq_none_iff (hlower : Word.Fits lower) (hupper : Word.Fits upper) (h : lower ≤ upper)
    {word : UInt64} :
    number? lower upper word = none ↔ ¬ accepts (rangeSize lower upper) word = true := by
  rw [number?_eq hlower hupper h]
  split
  next haccepted => exact ⟨fun hnone => (nomatch hnone), fun hrejected => absurd haccepted hrejected⟩
  next hrejected => exact ⟨fun _ => hrejected, fun _ => rfl⟩

theorem found_iff (hlower : Word.Fits lower) (hupper : Word.Fits upper) (h : lower ≤ upper)
    {generator : Twister} {rejections : Nat} {value : Int} :
    Found lower upper generator rejections value ↔
      AcceptedAfter (rangeSize lower upper) generator rejections ∧
        lower + place (rangeSize lower upper) (answerAt Twister.next rejections generator) =
          value := by
  constructor
  · rintro ⟨hrejected, haccepted⟩
    obtain ⟨haccepted, hvalue⟩ := (number?_eq_some_iff hlower hupper h).mp haccepted
    refine ⟨⟨fun i hi => ?_, haccepted⟩, hvalue⟩
    exact (number?_eq_none_iff hlower hupper h).mp (hrejected i hi)
  · rintro ⟨⟨hrejected, haccepted⟩, hvalue⟩
    refine ⟨fun i hi => ?_, (number?_eq_some_iff hlower hupper h).mpr ⟨haccepted, hvalue⟩⟩
    exact (number?_eq_none_iff hlower hupper h).mpr (hrejected i hi)

theorem draw_eq_some_iff (hlower : Word.Fits lower) (hupper : Word.Fits upper) (h : lower ≤ upper)
    {generator later : Twister} {value : Int} :
    draw lower upper generator = some (value, later) ↔
      ∃ rejections, Found lower upper generator rejections value ∧
        later = leftAfter Twister.next (rejections + 1) generator := by
  rw [draw_eq, Option.map_eq_some_iff]
  constructor
  · rintro ⟨⟨word, middle⟩, hsearch, hpair⟩
    obtain ⟨rejections, haccepted, rfl, rfl⟩ := nextAccepted_eq_some_iff.mp hsearch
    obtain ⟨hvalue, hlater⟩ := Prod.mk.inj hpair
    exact ⟨rejections, (found_iff hlower hupper h).mpr ⟨haccepted, hvalue⟩, hlater.symm⟩
  · rintro ⟨rejections, hfound, rfl⟩
    obtain ⟨haccepted, rfl⟩ := (found_iff hlower hupper h).mp hfound
    exact ⟨_, nextAccepted_of_acceptedAfter haccepted, rfl⟩

theorem draw_eq_none_iff (hlower : Word.Fits lower) (hupper : Word.Fits upper) (h : lower ≤ upper)
    {generator : Twister} :
    draw lower upper generator = none ↔
      ∀ i, number? lower upper (answerAt Twister.next i generator) = none := by
  simp only [draw_eq, Option.map_eq_none_iff, nextAccepted_eq_none_iff,
    number?_eq_none_iff hlower hupper h]

end Uniform

namespace Source

variable {lower upper : Int} {generator later : Twister}

theorem draw_twister_of_lt (h : upper < lower) (generator : Twister) :
    twister.draw lower upper generator = (.error .emptyRange, generator) :=
  if_pos h

theorem draw_twister_of_le (h : lower ≤ upper) (generator : Twister) :
    twister.draw lower upper generator =
      match Uniform.draw lower upper generator with
      | some (value, later) => (.ok value, later)
      | none => (.error .endless, generator) :=
  if_neg (Int.not_lt.mpr h)

theorem draw_twister_eq_ok_iff (hlower : Word.Fits lower) (hupper : Word.Fits upper)
    (h : lower ≤ upper) {value : Int} :
    twister.draw lower upper generator = (.ok value, later) ↔
      ∃ rejections, Uniform.Found lower upper generator rejections value ∧
        later = leftAfter Twister.next (rejections + 1) generator := by
  rw [← Uniform.draw_eq_some_iff hlower hupper h, draw_twister_of_le h]
  cases Uniform.draw lower upper generator with
  | none => exact ⟨fun hdraw => (nomatch hdraw), fun hdraw => (nomatch hdraw)⟩
  | some drawn => rw [Option.some.injEq, Prod.mk.injEq, Except.ok.injEq, Prod.ext_iff]

/-- The only way for a range that has a number to be left without an answer. -/
theorem draw_twister_eq_error_iff (hlower : Word.Fits lower) (hupper : Word.Fits upper)
    (h : lower ≤ upper) {fault : DrawFault} :
    twister.draw lower upper generator = (.error fault, later) ↔
      (∀ i, Uniform.number? lower upper (answerAt Twister.next i generator) = none) ∧
        fault = .endless ∧ later = generator := by
  rw [← Uniform.draw_eq_none_iff hlower hupper h, draw_twister_of_le h]
  cases Uniform.draw lower upper generator with
  | none =>
    rw [Prod.mk.injEq, Except.error.injEq, eq_self, true_and, eq_comm, @eq_comm _ generator]
  | some drawn => exact ⟨fun hdraw => (nomatch hdraw), fun hdraw => (nomatch hdraw.1)⟩

end Source

/-! ## 5. Refused draws -/

/-- A request that is refused without a change may be left out of a run. -/
theorem Source.replies_insert {σ ε : Type} {source : Source σ ε} {lower upper : Int} {fault : ε}
    (h : ∀ state, source.draw lower upper state = (.error fault, state))
    (before later : List Range) (state : σ) :
    source.replies (before ++ (lower, upper) :: later) state =
      ((source.replies (before ++ later) state).1.insertIdx before.length (.error fault),
        (source.replies (before ++ later) state).2) := by
  induction before generalizing state with
  | nil =>
    rw [List.nil_append, List.nil_append, replies_cons, h, List.length_nil, List.insertIdx_zero]
  | cons range before ih =>
    simp only [List.cons_append, replies_cons, ih, List.length_cons, List.insertIdx_succ_cons]

/-- A draw answers with the number of the first word that is not rejected, and has no end if there
is no such word. The answers lie inside the range, and all numbers of the range belong to equally
many words. An empty range is refused, and a run goes on as if it had not been asked for. -/
theorem seeded_draws_uniform {lower upper : Int} (hlower : Word.Fits lower)
    (hupper : Word.Fits upper) :
    (lower ≤ upper →
      (∀ generator value later, Source.twister.draw lower upper generator = (.ok value, later) →
        lower ≤ value ∧ value ≤ upper) ∧
      (∀ generator value later, Source.twister.draw lower upper generator = (.ok value, later) ↔
        ∃ rejections, Uniform.Found lower upper generator rejections value ∧
          later = leftAfter Twister.next (rejections + 1) generator) ∧
      (∀ generator fault later, Source.twister.draw lower upper generator = (.error fault, later) ↔
        (∀ i, Uniform.number? lower upper (answerAt Twister.next i generator) = none) ∧
          fault = .endless ∧ later = generator) ∧
      (∀ word value, Uniform.number? lower upper word = some value →
        lower ≤ value ∧ value ≤ upper) ∧
      ∀ value, lower ≤ value → value ≤ upper →
        {word : UInt64 | Uniform.number? lower upper word = some value}.ncard =
          2 ^ 64 / Uniform.rangeSize lower upper) ∧
    (upper < lower →
      (∀ generator, Source.twister.draw lower upper generator = (.error .emptyRange, generator)) ∧
      ∀ (before later : List Range) (generator : Twister),
        Source.twister.replies (before ++ (lower, upper) :: later) generator =
          ((Source.twister.replies (before ++ later) generator).1.insertIdx before.length
              (.error .emptyRange),
            (Source.twister.replies (before ++ later) generator).2)) := by
  constructor
  · intro h
    refine ⟨?_, fun generator value later => Source.draw_twister_eq_ok_iff hlower hupper h,
      fun generator fault later => Source.draw_twister_eq_error_iff hlower hupper h, ?_, ?_⟩
    · intro generator value later hdraw
      obtain ⟨rejections, hfound, -⟩ := (Source.draw_twister_eq_ok_iff hlower hupper h).mp hdraw
      exact Uniform.bounds_of_number? hlower hupper h hfound.accepted
    · intro word value hnumber
      exact Uniform.bounds_of_number? hlower hupper h hnumber
    · intro value hvalue hvalue'
      exact Uniform.ncard_number? hlower hupper hvalue hvalue'
  · intro h
    exact ⟨Source.draw_twister_of_lt h, Source.replies_insert (Source.draw_twister_of_lt h)⟩

-- All words of the window but one are blank, and so is the first word that is drawn.
def almostBlank : Twister :=
  { Twister.ofSeed 0 with
    words := Vector.ofFn fun place => if place.val = 157 then 0xFFFFFFFFFFFFFFFF else 0 }

-- A window without any bit, which all steps leave as it is.
def blank : Twister :=
  { Twister.ofSeed 0 with words := Vector.ofFn fun _ => 0 }

theorem next_of_blank {generator : Twister} (h : ∀ place, generator.words.get place = 0) :
    generator.next.1 = 0 ∧ ∀ place, generator.next.2.words.get place = 0 := by
  have hword : generator.words.get (generator.oldest + 156) ^^^ Twister.twist (Twister.splice
      (generator.words.get generator.oldest) (generator.words.get (generator.oldest + 1))) = 0 := by
    rw [h, h, h]
    decide
  refine ⟨?_, fun place => ?_⟩
  · exact (congrArg Twister.temper hword).trans (by decide)
  · have hplace : generator.words[place.val] = 0 := h place
    refine (Vector.getElem_set generator.oldest.isLt place.isLt).trans ?_
    rw [hword, hplace, ite_self]

theorem answerAt_blank (i : Nat) : answerAt Twister.next i blank = 0 := by
  have hblank : ∀ place, (leftAfter Twister.next i blank).words.get place = 0 := by
    induction i with
    | zero => exact fun place => Vector.getElem_ofFn place.isLt
    | succ i ih =>
      rw [leftAfter_succ]
      exact (next_of_blank ih).2
  exact (next_of_blank hblank).1

/-- A range of more than half of all words leaves one word for each number. The blank word is
rejected for it, and a generator of nothing else never comes to a throw of a die. Between two throws
an empty range is refused. -/
theorem seeded_draws_uniform_half :
    Word.Fits Word.least ∧ Word.Fits 0 ∧ Word.Fits 1 ∧ Word.Fits 6 ∧ Word.least ≤ 0 ∧ (0 : Int) < 1 ∧
      Uniform.Found Word.least 0 almostBlank 1 (-4755951324337476933) ∧
      Source.twister.draw Word.least 0 almostBlank =
        (.ok (-4755951324337476933), leftAfter Twister.next 2 almostBlank) ∧
      Source.twister.draw 1 6 blank = (.error .endless, blank) ∧
      {word : UInt64 | Uniform.number? Word.least 0 word = some 0}.ncard =
        2 ^ 64 / Uniform.rangeSize Word.least 0 ∧
      2 ^ 64 / Uniform.rangeSize Word.least 0 = 1 ∧
      Source.twister.replies [(1, 6), (1, 0), (1, 6)] almostBlank =
        ((Source.twister.replies [(1, 6), (1, 6)] almostBlank).1.insertIdx 1 (.error .emptyRange),
          (Source.twister.replies [(1, 6), (1, 6)] almostBlank).2) := by
  have hleast : Word.Fits Word.least := by decide
  have hzero : Word.Fits 0 := by decide
  have hone : Word.Fits 1 := by decide
  have hsix : Word.Fits 6 := by decide
  have hfound : Uniform.Found Word.least 0 almostBlank 1 (-4755951324337476933) :=
    ⟨by decide +kernel, by decide +kernel⟩
  have hrejected : ∀ i, Uniform.number? 1 6 (answerAt Twister.next i blank) = none := by
    intro i
    rw [answerAt_blank]
    decide
  obtain ⟨-, hdraw, -, -, hcount⟩ := (seeded_draws_uniform hleast hzero).1 (by decide)
  obtain ⟨-, -, hendless, -⟩ := (seeded_draws_uniform hone hsix).1 (by decide)
  obtain ⟨-, hrefused⟩ := (seeded_draws_uniform hone hzero).2 (by decide)
  exact ⟨hleast, hzero, hone, hsix, by decide, by decide, hfound,
    (hdraw almostBlank _ _).mpr ⟨1, hfound, rfl⟩,
    (hendless blank _ _).mpr ⟨hrejected, rfl, rfl⟩, hcount 0 (by decide) (by decide), by decide,
    hrefused [(1, 6)] [(1, 6)] almostBlank⟩

end DiceFormula
