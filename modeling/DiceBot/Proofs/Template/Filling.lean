import DiceBot.Template
import Mathlib.Data.List.Nodup

/-! # Filling a template

The arguments are put in one letter after another (`fillAll`), each time into all of the text that the
earlier ones have left. For a single character this means that a letter becomes its argument, in which the
later arguments are put in turn, and that every other character stays (`expand`). The text is filled
character by character (`fillAll_eq_flatMap`): the parts of a template are filled by themselves
(`fill_append`), what is no placeholder stays (`fill_eq_self`), and a placeholder becomes its argument filled
by the later ones (`fill_letter`). If no argument holds the letter of a later one (`Settled`), it makes no
difference that they are not put in all at once (`fill_eq_substitute`). -/

namespace DiceBot.Template

/-- Puts texts in the place of letters, one letter after another. -/
def fillAll (ps : List (Text × Char)) (s : Text) : Text :=
  ps.foldl (fun s (arg, letter) => Text.replaceChar letter arg s) s

theorem fill_eq_fillAll (template : Text) (args : List Text) :
    fill template args = fillAll (args.zip placeholders) template := rfl

theorem fillAll_cons (arg : Text) (letter : Char) (ps : List (Text × Char)) (s : Text) :
    fillAll ((arg, letter) :: ps) s = fillAll ps (Text.replaceChar letter arg s) := rfl

/-! ### What becomes of a character -/

/-- What becomes of a character: the text in the place of a letter is expanded by the later pairs. -/
def expand : List (Text × Char) → Char → Text
  | [], c => [c]
  | (arg, letter) :: later, c => if c = letter then arg.flatMap (expand later) else expand later c

/-- **A text is filled character by character.** -/
theorem fillAll_eq_flatMap : ∀ (ps : List (Text × Char)) (s : Text),
    fillAll ps s = s.flatMap (expand ps)
  | [], s => (List.flatMap_singleton' s).symm
  | (arg, letter) :: ps, s => by
    rw [fillAll_cons, fillAll_eq_flatMap ps, Text.replaceChar, List.flatMap_assoc]
    refine List.flatMap_congr fun c _ => ?_
    rw [expand]
    split
    · rfl
    · exact List.flatMap_singleton (expand ps) c

theorem fillAll_append (ps : List (Text × Char)) (s t : Text) :
    fillAll ps (s ++ t) = fillAll ps s ++ fillAll ps t := by
  rw [fillAll_eq_flatMap, fillAll_eq_flatMap, fillAll_eq_flatMap, List.flatMap_append]

theorem expand_of_forall_ne {c : Char} : ∀ {ps : List (Text × Char)}, (∀ p ∈ ps, c ≠ p.2) →
    expand ps c = [c]
  | [], _ => rfl
  | (arg, letter) :: ps, h => by
    obtain ⟨hc, hps⟩ := List.forall_mem_cons.mp h
    rw [expand, if_neg hc, expand_of_forall_ne hps]

theorem fillAll_eq_self {ps : List (Text × Char)} {s : Text} (h : ∀ p ∈ ps, p.2 ∉ s) :
    fillAll ps s = s := by
  have hkeep : ∀ c ∈ s, expand ps c = [c] := fun c hc =>
    expand_of_forall_ne fun p hp heq => h p hp (heq ▸ hc)
  rw [fillAll_eq_flatMap, List.flatMap_congr hkeep, List.flatMap_singleton']

/-- The first pairs do not matter to a character that is none of their letters. -/
theorem expand_append {c : Char} : ∀ {ps : List (Text × Char)} (qs : List (Text × Char)),
    (∀ p ∈ ps, c ≠ p.2) → expand (ps ++ qs) c = expand qs c
  | [], _, _ => rfl
  | (arg, letter) :: ps, qs, h => by
    obtain ⟨hc, hps⟩ := List.forall_mem_cons.mp h
    rw [List.cons_append, expand, if_neg hc, expand_append qs hps]

/-! ### Templates -/

/-- **Every part of a template is filled by itself.** -/
theorem fill_append (s t : Text) (args : List Text) : fill (s ++ t) args = fill s args ++ fill t args :=
  fillAll_append _ s t

/-- **A text without placeholders stays as it is.** -/
theorem fill_eq_self {s : Text} (h : ∀ c ∈ s, c ∉ placeholders) (args : List Text) :
    fill s args = s :=
  fillAll_eq_self fun p hp hs => h p.2 hs (List.of_mem_zip (a := p.1) (b := p.2) hp).2

theorem map_snd_zip_sublist {α β : Type} : ∀ (as : List α) (bs : List β),
    ((as.zip bs).map Prod.snd).Sublist bs
  | [], bs => List.nil_sublist bs
  | _ :: _, [] => List.Sublist.slnil
  | _ :: as, b :: bs => (map_snd_zip_sublist as bs).cons_cons b

/-- **A placeholder becomes its argument**, filled by the later arguments only. -/
theorem fill_letter {args : List Text} {i : Nat} {arg : Text} {letter : Char}
    (harg : args[i]? = some arg) (hletter : placeholders[i]? = some letter) :
    fill [letter] args = fillAll ((args.zip placeholders).drop (i + 1)) arg := by
  have hnodup : ((args.zip placeholders).map Prod.snd).Nodup :=
    (map_snd_zip_sublist args placeholders).nodup placeholders_nodup
  obtain ⟨hi, hget⟩ := List.getElem?_eq_some_iff.mp
    (List.getElem?_zip_eq_some (z := (arg, letter)).mpr ⟨harg, hletter⟩)
  have hsplit : args.zip placeholders = (args.zip placeholders).take i ++
      (arg, letter) :: (args.zip placeholders).drop (i + 1) := by
    rw [← hget, ← List.drop_eq_getElem_cons hi, List.take_append_drop]
  -- the letters before this one are others
  have hbefore : ∀ p ∈ (args.zip placeholders).take i, letter ≠ p.2 := by
    rw [hsplit, List.map_append, List.map_cons] at hnodup
    intro p hp heq
    exact (List.nodup_append.mp hnodup).2.2 p.2 (List.mem_map_of_mem hp) letter
      List.mem_cons_self heq.symm
  calc fill [letter] args
      = expand (args.zip placeholders) letter := by
        rw [fill_eq_fillAll, fillAll_eq_flatMap, List.flatMap_singleton]
    _ = expand ((arg, letter) :: (args.zip placeholders).drop (i + 1)) letter :=
        (congrArg (expand · letter) hsplit).trans (expand_append _ hbefore)
    _ = fillAll ((args.zip placeholders).drop (i + 1)) arg := by
        rw [expand, if_pos rfl, fillAll_eq_flatMap]

/-- A placeholder becomes its argument as it is, if no placeholder is in that. -/
theorem fill_placeholder {letter : Char} {arg : Text} {args : List Text}
    (h : (arg, letter) ∈ args.zip placeholders) (harg : ∀ c ∈ arg, c ∉ placeholders) :
    fill [letter] args = arg := by
  obtain ⟨i, hi⟩ := List.mem_iff_getElem?.mp h
  obtain ⟨hargs, hletter⟩ := List.getElem?_zip_eq_some.mp hi
  rw [fill_letter hargs hletter]
  refine fillAll_eq_self fun p hp hin => harg p.2 hin ?_
  exact (List.of_mem_zip (a := p.1) (b := p.2) (List.mem_of_mem_drop hp)).2

/-- Every placeholder has a trial argument. -/
theorem mem_zip_trialArgs {letter : Char} (h : letter ∈ placeholders) :
    (['1'], letter) ∈ trialArgs.zip placeholders := by
  have hzip : trialArgs.zip placeholders = placeholders.map fun c => (['1'], c) := by
    have := List.zip_map' (f := fun _ : Char => ['1']) (g := id) (l := placeholders)
    rwa [List.map_id] at this
  rw [hzip]
  exact List.mem_map_of_mem h

/-! ### All at once -/

/-- What becomes of a character if the texts are put in the place of the letters all at once. -/
def substitute (ps : List (Text × Char)) (c : Char) : Text :=
  ((ps.find? fun p => p.2 = c).map Prod.fst).getD [c]

/-- No text holds the letter of a later one. -/
def Settled (ps : List (Text × Char)) : Prop := ps.Pairwise fun p q => q.2 ∉ p.1

theorem expand_eq_substitute : ∀ {ps : List (Text × Char)}, Settled ps → ∀ c,
    expand ps c = substitute ps c
  | [], _, _ => rfl
  | (arg, letter) :: ps, h, c => by
    obtain ⟨harg, hps⟩ := List.pairwise_cons.mp h
    rw [expand]
    by_cases hc : c = letter
    · rw [if_pos hc, ← fillAll_eq_flatMap, fillAll_eq_self harg]
      simp [substitute, hc]
    · rw [if_neg hc, expand_eq_substitute hps]
      simp [substitute, Ne.symm hc]

/-- **Settled arguments** are put in all at once. -/
theorem fill_eq_substitute {args : List Text} (h : Settled (args.zip placeholders)) (s : Text) :
    fill s args = s.flatMap (substitute (args.zip placeholders)) := by
  rw [fill_eq_fillAll, fillAll_eq_flatMap]
  exact List.flatMap_congr fun c _ => expand_eq_substitute h c

theorem zip_take_length {α β : Type} : ∀ (as : List α) (bs : List β),
    (as.take bs.length).zip bs = as.zip bs
  | [], _ => by simp
  | _ :: _, [] => by simp
  | a :: as, b :: bs => congrArg ((a, b) :: ·) (zip_take_length as bs)

/-- Arguments beyond the placeholders do not matter. -/
theorem fill_congr {args args' : List Text} (h : args'.take 26 = args.take 26) (s : Text) :
    fill s args' = fill s args := by
  rw [fill_eq_fillAll, fill_eq_fillAll, ← zip_take_length args', ← zip_take_length args,
    placeholders_length, h]

/-- The letters of the arguments are the first placeholders. -/
theorem mem_take_of_mem_zip {args : List Text} {p : Text × Char}
    (h : p ∈ args.zip placeholders) : p.2 ∈ placeholders.take (min 26 args.length) := by
  obtain ⟨i, hi⟩ := List.mem_iff_getElem?.mp h
  obtain ⟨harg, hletter⟩ := List.getElem?_zip_eq_some.mp hi
  obtain ⟨hargs, -⟩ := List.getElem?_eq_some_iff.mp harg
  obtain ⟨hletters, -⟩ := List.getElem?_eq_some_iff.mp hletter
  rw [placeholders_length] at hletters
  refine List.mem_iff_getElem?.mpr ⟨i, ?_⟩
  rw [List.getElem?_take_of_lt (by omega), hletter]

/-- **Filling is a homomorphism** that keeps every character but the letters of the arguments, and sends a
letter to its argument filled by the later ones; this is what happens to the characters one by one. If no
argument holds the letter of a later one, the arguments are put in all at once; and of more than
twenty-six arguments the others do not matter. -/
theorem fill_characterwise (args : List Text) :
    (∀ s t, fill (s ++ t) args = fill s args ++ fill t args) ∧
      (∀ c, c ∉ placeholders.take (min 26 args.length) → fill [c] args = [c]) ∧
      (∀ i arg letter, args[i]? = some arg → placeholders[i]? = some letter →
        fill [letter] args = fillAll ((args.zip placeholders).drop (i + 1)) arg) ∧
      (∀ s, fill s args = s.flatMap (expand (args.zip placeholders))) ∧
      (Settled (args.zip placeholders) → ∀ s,
        fill s args = s.flatMap (substitute (args.zip placeholders))) ∧
      ∀ args', args'.take 26 = args.take 26 → ∀ s, fill s args' = fill s args := by
  refine ⟨fun s t => fill_append s t args, fun c hc => ?_, fun i arg letter => fill_letter,
    fillAll_eq_flatMap _, fill_eq_substitute, fun args' => fill_congr⟩
  exact fillAll_eq_self fun p hp hin => hc (List.mem_singleton.mp hin ▸ mem_take_of_mem_zip hp)

/-- The later arguments reach into the first, but that does not reach into itself. The letter of an earlier
argument stays in a later one. -/
theorem fill_characterwise_reaching :
    let args : List Text := ["B+A".toList, "C".toList, "2d6".toList]
    (args[0]? = some "B+A".toList ∧ placeholders[0]? = some 'A') ∧
      fill "A*d".toList args = "2d6+A*d".toList ∧
      fill ['A'] args = fillAll [("C".toList, 'B'), ("2d6".toList, 'C')] "B+A".toList ∧
      Settled (["1".toList, "A".toList].zip placeholders) ∧
      fill "A+B".toList ["1".toList, "A".toList] = "1+A".toList := by
  intro args
  obtain ⟨happend, hkeep, hsend, -, -, -⟩ := fill_characterwise args
  obtain ⟨-, -, -, -, hsettled, -⟩ := fill_characterwise ["1".toList, "A".toList]
  have hA : fill ['A'] args = fillAll [("C".toList, 'B'), ("2d6".toList, 'C')] "B+A".toList :=
    hsend 0 _ 'A' rfl rfl
  have hnone : Settled (["1".toList, "A".toList].zip placeholders) := by
    unfold Settled
    decide
  have hfill : fill "A*d".toList args = "2d6+A*d".toList := calc
    fill "A*d".toList args = fill ['A'] args ++ (fill ['*'] args ++ fill ['d'] args) := by
      rw [← happend, ← happend]
      rfl
    _ = "2d6+A*d".toList := by
      rw [hA, hkeep '*' (by decide), hkeep 'd' (by decide)]
      rfl
  exact ⟨⟨rfl, rfl⟩, hfill, hA, hnone, hsettled hnone _⟩

end DiceBot.Template
