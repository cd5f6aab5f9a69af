import DiceBot.Proofs.Dice.Rolling
import Mathlib.Algebra.Order.Floor.Div
import Mathlib.Data.Set.Card
import Mathlib.Order.Interval.Finset.Nat

/-! # The words of a face

The products `w * S` of the words with the number of sides are cut into `S` windows of length `2^32`, one
for each face, and in every window the first `S * ⌊2^32 / S⌋` numbers are accepted (`face?_eq_some_iff`). So the
words of a face follow one another (`face?_eq_some_iff_run`), and every face has equally many of them
(`encard_words`), whether or not `S` divides `2^32`. Sequences of dice have equally many sequences of words
(`encard_wordLists`). -/

namespace DiceBot

/-- The number of words that give a die a certain face. -/
def wordsPerFace (sides : UInt32) : Nat := wordCount / sides.toNat

/-- The first word that gives a die the face `d`. -/
def firstWord (sides d : UInt32) : Nat := ((d.toNat - 1) * wordCount) ⌈/⌉ sides.toNat

section Faces

variable {sides d w : UInt32}

theorem mul_wordsPerFace_le (sides : UInt32) : sides.toNat * wordsPerFace sides ≤ wordCount :=
  Nat.mul_div_le wordCount sides.toNat

theorem wordsPerFace_pos (hs : 0 < sides.toNat) : 0 < wordsPerFace sides :=
  Nat.div_pos (Nat.le_of_lt sides.toNat_lt) hs

/-- What is refused in a window is what `S * ⌊2^32 / S⌋` falls short of its length. -/
theorem refusedCount_add (sides : UInt32) :
    sides.toNat * wordsPerFace sides + refusedCount sides = wordCount := by
  have hle : sides.toNat ≤ wordCount := Nat.le_of_lt sides.toNat_lt
  rw [refusedCount, ← Nat.mod_eq_sub_mod hle]
  exact Nat.div_add_mod wordCount sides.toNat

/-- **A word shows the face `d`** if its product lies in the accepted part of the window of `d`. -/
theorem face?_eq_some_iff (hs : 0 < sides.toNat) (hd : IsFace sides d) :
    face? sides w = some d ↔ (d.toNat - 1) * wordCount ≤ sides.toNat * w.toNat ∧
      sides.toNat * w.toNat < (d.toNat - 1) * wordCount + sides.toNat * wordsPerFace sides := by
  obtain ⟨hd1, hds⟩ := hd
  have hadd := refusedCount_add sides
  have hpos := Nat.mul_pos hs (wordsPerFace_pos hs)
  have hsides := sides.toNat_lt
  have hW : wordCount = 4294967296 := rfl
  -- the face is told by the window
  have hface : UInt32.ofNat (1 + w.toNat * sides.toNat / wordCount) = d ↔
      w.toNat * sides.toNat / wordCount = d.toNat - 1 := by
    rw [← UInt32.toNat_inj, toNat_upperHalf hs]
    omega
  have hdiv := Nat.div_add_mod (w.toNat * sides.toNat) wordCount
  have hmod := Nat.mod_lt (w.toNat * sides.toNat) (show 0 < wordCount by decide)
  simp only [face?, Option.ite_none_right_eq_some, Option.some.injEq, hface]
  rw [Nat.mul_comm sides.toNat w.toNat]
  constructor
  · rintro ⟨haccept, hwindow⟩
    rw [hwindow, Nat.mul_comm] at hdiv
    omega
  · rintro ⟨hle, hlt⟩
    have hwindow : w.toNat * sides.toNat / wordCount = d.toNat - 1 :=
      Nat.div_eq_of_lt_le hle (by rw [Nat.succ_mul]; omega)
    rw [hwindow, Nat.mul_comm] at hdiv
    exact ⟨by omega, hwindow⟩

/-- The numbers of which the products lie in the accepted part of a window follow one another. -/
theorem product_mem_window_iff (hs : 0 < sides.toNat) (d : UInt32) (n : Nat) :
    ((d.toNat - 1) * wordCount ≤ sides.toNat * n ∧
        sides.toNat * n < (d.toNat - 1) * wordCount + sides.toNat * wordsPerFace sides) ↔
      firstWord sides d ≤ n ∧ n < firstWord sides d + wordsPerFace sides := by
  have hfirst : ∀ m, firstWord sides d ≤ m ↔ (d.toNat - 1) * wordCount ≤ sides.toNat * m :=
    fun m => ceilDiv_le_iff_le_mul hs
  rw [hfirst]
  refine and_congr_right fun _ => ?_
  rcases Nat.lt_or_ge n (wordsPerFace sides) with hn | hn
  · have hlt := Nat.mul_lt_mul_of_pos_left hn hs
    exact ⟨fun _ => by omega, fun _ => by omega⟩
  · obtain ⟨m, rfl⟩ := Nat.exists_eq_add_of_le hn
    have hbehind := hfirst m
    rw [Nat.mul_add]
    omega

/-- **The words of a face** follow one another. -/
theorem face?_eq_some_iff_run (hs : 0 < sides.toNat) (hd : IsFace sides d) :
    face? sides w = some d ↔
      firstWord sides d ≤ w.toNat ∧ w.toNat < firstWord sides d + wordsPerFace sides :=
  (face?_eq_some_iff hs hd).trans (product_mem_window_iff hs d w.toNat)

/-- The last window ends where the words do. -/
theorem lt_wordCount_of_mem_run (hs : 0 < sides.toNat) (hd : IsFace sides d) {n : Nat}
    (hfirst : firstWord sides d ≤ n) (hlast : n < firstWord sides d + wordsPerFace sides) :
    n < wordCount := by
  obtain ⟨-, hlt⟩ := (product_mem_window_iff hs d n).mpr ⟨hfirst, hlast⟩
  have hwindows : (d.toNat - 1) * wordCount + wordCount ≤ sides.toNat * wordCount := by
    rw [← Nat.succ_mul]
    exact Nat.mul_le_mul_right wordCount (show d.toNat - 1 + 1 ≤ sides.toNat by
      have := hd.1
      have := hd.2
      omega)
  have hle := mul_wordsPerFace_le sides
  exact Nat.lt_of_mul_lt_mul_left (show sides.toNat * n < sides.toNat * wordCount by omega)

/-- **Every face has equally many words.** -/
theorem encard_words (hs : 0 < sides.toNat) (hd : IsFace sides d) :
    {w | face? sides w = some d}.encard = wordsPerFace sides := by
  have hinj : Function.Injective UInt32.toNat := fun _ _ => UInt32.toNat_inj.mp
  have himage : UInt32.toNat '' {w | face? sides w = some d} =
      Finset.Ico (firstWord sides d) (firstWord sides d + wordsPerFace sides) := by
    ext n
    simp only [Set.mem_image, Set.mem_ofPred_eq, face?_eq_some_iff_run hs hd, Finset.coe_Ico,
      Set.mem_Ico]
    constructor
    · rintro ⟨w, hw, rfl⟩
      exact hw
    · intro hn
      have hword : (UInt32.ofNat n).toNat = n :=
        UInt32.toNat_ofNat_of_lt' (lt_wordCount_of_mem_run hs hd hn.1 hn.2)
      exact ⟨UInt32.ofNat n, by rwa [hword], hword⟩
  rw [← hinj.encard_image, himage, Set.encard_coe_eq_coe_finsetCard, Nat.card_Ico,
    Nat.add_sub_cancel_left]

/-- Every face can fall. -/
theorem exists_word (hs : 0 < sides.toNat) (hd : IsFace sides d) : ∃ w, face? sides w = some d := by
  have hne : {w | face? sides w = some d}.Nonempty := by
    rw [← Set.encard_ne_zero, encard_words hs hd]
    exact_mod_cast (wordsPerFace_pos hs).ne'
  exact hne

end Faces

/-- The words of a list that starts with a certain die, and then the words for the others. -/
theorem wordLists_cons (sides d : UInt32) (ds : List UInt32) :
    {ws : List UInt32 | ws.map (face? sides) = (d :: ds).map some} =
      (fun p : UInt32 × List UInt32 => p.1 :: p.2) ''
        ({w | face? sides w = some d} ×ˢ {ws | ws.map (face? sides) = ds.map some}) := by
  ext ws
  simp only [Set.mem_ofPred_eq, List.map_cons, List.map_eq_cons_iff, Set.mem_image, Set.mem_prod,
    Prod.exists]
  constructor
  · rintro ⟨w, us, rfl, hw, hus⟩
    exact ⟨w, us, ⟨hw, hus⟩, rfl⟩
  · rintro ⟨w, us, ⟨hw, hus⟩, rfl⟩
    exact ⟨w, us, rfl, hw, hus⟩

/-- **All sequences of dice have equally many sequences of words.** -/
theorem encard_wordLists {sides : UInt32} (hs : 0 < sides.toNat) : ∀ {ds : List UInt32},
    (∀ d ∈ ds, IsFace sides d) → {ws : List UInt32 | ws.map (face? sides) = ds.map some}.encard =
      (wordsPerFace sides ^ ds.length : Nat)
  | [], _ => by simp
  | d :: ds, h => by
    obtain ⟨hd, hds⟩ := List.forall_mem_cons.mp h
    have hinj : Function.Injective fun p : UInt32 × List UInt32 => p.1 :: p.2 := by
      rintro ⟨w, us⟩ ⟨v, vs⟩ h
      obtain ⟨rfl, rfl⟩ := List.cons.inj h
      rfl
    rw [wordLists_cons, hinj.encard_image, Set.encard_prod, encard_words hs hd,
      encard_wordLists hs hds, List.length_cons, Nat.pow_succ']
    exact_mod_cast rfl

end DiceBot
