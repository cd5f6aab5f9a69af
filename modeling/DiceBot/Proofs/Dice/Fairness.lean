import DiceBot.Proofs.Dice.Bounding

/-! # Fair dice

A term with `N` dice of `S` sides is rolled with `N` words if none of them is refused. Among all sequences of
`N` words, each sequence of faces then comes from `⌊2^32 / S⌋ ^ N` of them, the same number for all
(`DiceTerm.encard_rolledBy`): every die is as likely to show one face as another, whatever the others
show. A refused word only takes its place in the sequence: without it the same dice fall
(`DiceTerm.dice_eq_of_filter_eq`). -/

namespace DiceBot

/-- A word that is not refused. -/
def isAccepted (sides w : UInt32) : Bool := (face? sides w).isSome

section Words

variable {sides : UInt32} {ws ds : List UInt32}

/-- Words show dice one by one if none of them is refused. -/
theorem map_face?_eq_iff : ws.map (face? sides) = ds.map some ↔
    ws.filterMap (face? sides) = ds ∧ ws.length = ds.length := by
  constructor
  · intro h
    have hid := congrArg (List.filterMap id) h
    have hlen := congrArg List.length h
    rw [List.filterMap_map, List.filterMap_map, Function.id_comp, Function.id_comp,
      List.filterMap_some] at hid
    rw [List.length_map, List.length_map] at hlen
    exact ⟨hid, hlen⟩
  · rintro ⟨rfl, hlen⟩
    have hall := List.filterMap_length_eq_length.mp hlen.symm
    rw [List.map_filterMap_some_eq_filter_map_isSome]
    refine (List.filter_eq_self.mpr fun f hf => ?_).symm
    obtain ⟨w, hw, rfl⟩ := List.mem_map.mp hf
    exact hall w hw

/-- The faces are those of the accepted words. -/
theorem filterMap_filter_isAccepted (sides : UInt32) (ws : List UInt32) :
    (ws.filter (isAccepted sides)).filterMap (face? sides) = ws.filterMap (face? sides) := by
  rw [List.filterMap_filter]
  refine List.filterMap_congr fun w _ => ?_
  unfold isAccepted
  cases face? sides w <;> rfl

end Words

namespace DiceTerm

variable {t : DiceTerm} {ws us vs ds : List UInt32}

/-- The dice of the term are rolled with these words, each of which is drawn, and no other. -/
def RolledBy (t : DiceTerm) (ws ds : List UInt32) : Prop :=
  t.dice (⟨⟨ws⟩, 0⟩ : Metered Script) = some (ds, ⟨⟨[]⟩, ws.length⟩)

/-- As many words as dice are drawn if each shows one of the dice. -/
theorem rolledBy_iff (hds : ds.length = t.repeats.toNat) (hws : ws.length = t.repeats.toNat) :
    t.RolledBy ws ds ↔ ws.map (face? t.sides) = ds.map some := by
  constructor
  · intro h
    obtain ⟨us, hdraws, hus⟩ := exists_draws_of_mapM_die h
    obtain ⟨hdraws, hcount⟩ := Metered.draws_iff.mp hdraws
    obtain ⟨n, hn⟩ := Script.exists_append_of_draws hdraws rfl rfl
    have hlen : us.length = ws.length := by simpa using hcount.symm
    obtain ⟨rfl, -⟩ := List.append_inj hn hlen.symm
    exact map_face?_eq_iff.mpr ⟨hus, hws.trans hds.symm⟩
  · intro h
    have hdraws := Script.draws ws []
    rw [List.append_nil] at hdraws
    have hmetered : Draws (⟨⟨ws⟩, 0⟩ : Metered Script) ws ⟨⟨[]⟩, ws.length⟩ :=
      Metered.draws_iff.mpr ⟨hdraws, (Nat.zero_add _).symm⟩
    have hdice := mapM_die_of_draws (fun m => Script.patience_pos m.source) hmetered h
    rwa [hds] at hdice

/-- **All rolls are equally likely**: they come from equally many sequences of words. -/
theorem encard_rolledBy (hs : 0 < t.sides.toNat) (hlen : ds.length = t.repeats.toNat)
    (hfaces : ∀ d ∈ ds, IsFace t.sides d) :
    {ws | ws.length = t.repeats.toNat ∧ t.RolledBy ws ds}.encard =
      ((wordCount / t.sides.toNat) ^ t.repeats.toNat : Nat) := by
  have hset : {ws | ws.length = t.repeats.toNat ∧ t.RolledBy ws ds} =
      {ws | ws.map (face? t.sides) = ds.map some} := by
    ext ws
    constructor
    · rintro ⟨hws, hrolled⟩
      exact (rolledBy_iff hlen hws).mp hrolled
    · intro h
      have hws := (map_face?_eq_iff.mp h).2.trans hlen
      exact ⟨hws, (rolledBy_iff hlen hws).mpr h⟩
  rw [hset, encard_wordLists hs hfaces, hlen]
  rfl

/-- The dice from a script are the faces of its accepted words, and ones behind them. -/
theorem exists_dice_script (hs : 0 < t.sides.toNat) (us : List UInt32) :
    ∃ ds g' n, t.dice (⟨us⟩ : Script) = some (ds, g') ∧ ds.length = t.repeats.toNat ∧
      ds <+: us.filterMap (face? t.sides) ++ List.replicate n 1 := by
  obtain ⟨ds, g', hdice⟩ := Script.steady.exists_dice hs (⟨us⟩ : Script)
  obtain ⟨hlen, -⟩ := mapM_die hs _ hdice
  obtain ⟨ws, hdraws, hws⟩ := exists_draws_of_mapM_die hdice
  obtain ⟨n, hn⟩ := Script.exists_append_of_draws hdraws rfl (show g' = ⟨g'.words⟩ from rfl)
  refine ⟨ds, g', n, hdice, hlen, ?_⟩
  have hzeros : (List.replicate n (0 : UInt32)).filterMap (face? t.sides) = List.replicate n 1 := by
    rw [List.filterMap_replicate_of_some (face?_zero t.sides)]
  rw [← hzeros, ← List.filterMap_append, hn, List.filterMap_append, hws]
  exact List.prefix_append ds _

/-- **Refused words leave no trace**: the same accepted words make the same dice. -/
theorem dice_eq_of_filter_eq (hs : 0 < t.sides.toNat)
    (h : us.filter (isAccepted t.sides) = vs.filter (isAccepted t.sides)) :
    (t.dice (⟨us⟩ : Script)).map Prod.fst = (t.dice (⟨vs⟩ : Script)).map Prod.fst := by
  have hfaces : us.filterMap (face? t.sides) = vs.filterMap (face? t.sides) := by
    rw [← filterMap_filter_isAccepted, h, filterMap_filter_isAccepted]
  obtain ⟨ds, g, n, hds, hdslen, hdsfirst⟩ := exists_dice_script hs us
  obtain ⟨es, k, m, hes, heslen, hesfirst⟩ := exists_dice_script hs vs
  -- both begin the same sequence of faces, and both are as long
  have hones : List.replicate m (1 : UInt32) ++ List.replicate n 1 =
      List.replicate n 1 ++ List.replicate m 1 := by
    rw [← List.replicate_add, ← List.replicate_add, Nat.add_comm]
  have hdsfirst := hdsfirst.trans (List.prefix_append _ (List.replicate m 1))
  have hesfirst := hesfirst.trans (List.prefix_append _ (List.replicate n 1))
  rw [List.append_assoc, hones, ← hfaces, ← List.append_assoc] at hesfirst
  have hlen := hdslen.trans heslen.symm
  obtain rfl : ds = es :=
    (List.prefix_of_prefix_length_le hdsfirst hesfirst (Nat.le_of_eq hlen)).eq_of_length hlen
  rw [hds, hes]
  rfl

/-- **Dice are fair**: all sequences of faces come from equally many sequences of words of which none is
refused. Where the total of the faces is in range, as many such sequences of words give the roll that answers
this total and these faces. And the dice of any source are the faces of the accepted words in their order,
whatever words are refused between them. -/
theorem roll_fair (hr : 0 < t.repeats.toNat) (hs : 0 < t.sides.toNat)
    (hlen : ds.length = t.repeats.toNat) (hfaces : ∀ d ∈ ds, IsFace t.sides d) :
    {ws | ws.length = t.repeats.toNat ∧ t.RolledBy ws ds}.ncard =
        (wordCount / t.sides.toNat) ^ t.repeats.toNat ∧
      (∀ v, t.total ds = .ok v →
        {ws | ws.length = t.repeats.toNat ∧ t.roll.Yields (⟨⟨ws⟩, 0⟩ : Metered Script) (v, ds)
            ⟨⟨[]⟩, t.repeats.toNat⟩}.ncard = (wordCount / t.sides.toNat) ^ t.repeats.toNat) ∧
      (∀ {σ : Type} [WordSource σ] {g g' : σ} {rs : List UInt32}, t.dice g = some (rs, g') →
        ∃ ws, Draws g ws g' ∧ ws.filterMap (face? t.sides) = rs) ∧
      ∀ us vs : List UInt32, us.filter (isAccepted t.sides) = vs.filter (isAccepted t.sides) →
        (t.dice (⟨us⟩ : Script)).map Prod.fst = (t.dice (⟨vs⟩ : Script)).map Prod.fst := by
  have hcount := encard_rolledBy hs hlen hfaces
  refine ⟨?_, fun v hv => ?_, fun hdice => exists_draws_of_mapM_die hdice,
    fun us vs h => dice_eq_of_filter_eq hs h⟩
  · rw [Set.ncard_def, hcount, ENat.toNat_natCast]
  · have hset : {ws | ws.length = t.repeats.toNat ∧ t.roll.Yields (⟨⟨ws⟩, 0⟩ : Metered Script) (v, ds)
        ⟨⟨[]⟩, t.repeats.toNat⟩} = {ws | ws.length = t.repeats.toNat ∧ t.RolledBy ws ds} := by
      ext ws
      refine and_congr_right fun hws => ?_
      rw [yields_roll_iff hr hs, RolledBy, hws]
      exact and_iff_left hv
    rw [hset, Set.ncard_def, hcount, ENat.toNat_natCast]

/-- Six does not divide the number of words, and four words are refused: `0xAAAAAAAA` is one of them. -/
theorem roll_fair_twoDice :
    let t : DiceTerm := ⟨2, 6, .none⟩
    (([3, 5] : List UInt32).length = t.repeats.toNat ∧
      ∀ d ∈ ([3, 5] : List UInt32), IsFace t.sides d) ∧
      {ws | ws.length = 2 ∧ t.RolledBy ws [3, 5]}.ncard = 715827882 ^ 2 ∧
      {ws | ws.length = 2 ∧ t.roll.Yields (⟨⟨ws⟩, 0⟩ : Metered Script) (8, [3, 5])
        ⟨⟨[]⟩, 2⟩}.ncard = 715827882 ^ 2 ∧
      (t.dice (⟨[0xAAAAAAAA, 0x60000000, 0xAAAAAAAA, 0xB0000000]⟩ : Script)).map Prod.fst =
        (t.dice (⟨[0x60000000, 0xB0000000]⟩ : Script)).map Prod.fst := by
  intro t
  have hlen : ([3, 5] : List UInt32).length = t.repeats.toNat := rfl
  have hfaces : ∀ d ∈ ([3, 5] : List UInt32), IsFace t.sides d := List.forall_mem_cons.mpr
    ⟨⟨by decide, by decide⟩, List.forall_mem_singleton.mpr ⟨by decide, by decide⟩⟩
  obtain ⟨hcount, hanswers, -, hrefused⟩ := roll_fair (t := t) (by decide) (by decide) hlen hfaces
  have hanswers := hanswers 8 (by decide)
  rw [show t.repeats.toNat = 2 from rfl, show wordCount / t.sides.toNat = 715827882 by decide]
    at hcount hanswers
  exact ⟨⟨hlen, hfaces⟩, hcount, hanswers, hrefused _ _ (by decide)⟩

end DiceTerm

end DiceBot
