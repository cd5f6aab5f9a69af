import DiceBot.Proofs.Dice.Ending
import DiceBot.Proofs.Dice.Faces

/-! # What is drawn for dice

`Draws g ws g'` says that the source `g` gives the words `ws` and is the source `g'` then. A die draws words
up to the first that is accepted (`faceWithin_eq_some_iff`). So dice that fall one after another are the faces
of the accepted words in their order (`exists_draws_of_mapM_die`), and words of which none is refused make one
die each (`mapM_die_of_draws`). -/

namespace DiceBot

/-- The source gives these words, one after another. -/
inductive Draws {σ : Type} [WordSource σ] : σ → List UInt32 → σ → Prop where
  | nil {g : σ} : Draws g [] g
  | cons {g g' : σ} {ws : List UInt32} : Draws (WordSource.next g).2 ws g' →
      Draws g ((WordSource.next g).1 :: ws) g'

/-- The words `us` are refused, and then `w` is accepted with the face `f`. -/
structure FallsBehind (sides f : UInt32) (us : List UInt32) (w : UInt32) : Prop where
  refused : ∀ u ∈ us, face? sides u = none
  accepted : face? sides w = some f

section Drawing

variable {σ : Type} [WordSource σ] {sides f w : UInt32} {ws us ds : List UInt32} {g g' : σ}

theorem draws_nil_iff : Draws g [] g' ↔ g = g' :=
  ⟨fun h => by cases h; rfl, fun h => h ▸ .nil⟩

theorem draws_cons_iff :
    Draws g (w :: ws) g' ↔ (WordSource.next g).1 = w ∧ Draws (WordSource.next g).2 ws g' :=
  ⟨fun h => by cases h with | cons h => exact ⟨rfl, h⟩, fun ⟨hw, h⟩ => hw ▸ .cons h⟩

theorem Draws.append {g'' : σ} (h : Draws g ws g') (h' : Draws g' us g'') :
    Draws g (ws ++ us) g'' := by
  induction h with
  | nil => exact h'
  | cons _ ih => exact .cons (ih h')

/-- A die draws up to the first accepted word. -/
theorem faceWithin_eq_some_iff : ∀ {n : Nat} {g : σ}, faceWithin sides n g = some (f, g') ↔
    ∃ us w, us.length < n ∧ FallsBehind sides f us w ∧ Draws g (us ++ [w]) g'
  | 0, g => by simp [faceWithin]
  | n + 1, g => by
    rw [faceWithin]
    cases hface : face? sides (WordSource.next g).1 with
    | some d =>
      simp only [hface, Option.some.injEq, Prod.mk.injEq]
      constructor
      · rintro ⟨rfl, rfl⟩
        exact ⟨[], _, Nat.succ_pos n, ⟨List.forall_mem_nil _, hface⟩, .cons .nil⟩
      · rintro ⟨us, w, -, hfalls, hdraws⟩
        cases us with
        | nil =>
          obtain ⟨rfl, hend⟩ := draws_cons_iff.mp hdraws
          exact ⟨Option.some.inj (hface.symm.trans hfalls.accepted), draws_nil_iff.mp hend⟩
        | cons u us =>
          obtain ⟨rfl, -⟩ := draws_cons_iff.mp hdraws
          cases hface.symm.trans (hfalls.refused _ List.mem_cons_self)
    | none =>
      simp only [hface]
      rw [faceWithin_eq_some_iff]
      constructor
      · rintro ⟨us, w, hlen, ⟨hrefused, haccepted⟩, hdraws⟩
        exact ⟨_ :: us, w, Nat.succ_lt_succ hlen,
          ⟨List.forall_mem_cons.mpr ⟨hface, hrefused⟩, haccepted⟩, .cons hdraws⟩
      · rintro ⟨us, w, hlen, ⟨hrefused, haccepted⟩, hdraws⟩
        cases us with
        | nil =>
          obtain ⟨rfl, -⟩ := draws_cons_iff.mp hdraws
          cases hface.symm.trans haccepted
        | cons u us =>
          obtain ⟨-, hdraws⟩ := draws_cons_iff.mp hdraws
          exact ⟨us, w, Nat.lt_of_succ_lt_succ hlen,
            ⟨(List.forall_mem_cons.mp hrefused).2, haccepted⟩, hdraws⟩

/-- **The dice are the faces of the accepted words**, in the order in which these are drawn. -/
theorem exists_draws_of_mapM_die : ∀ {n : Nat} {g g' : σ} {ds : List UInt32},
    (List.replicate n sides).mapM (die : UInt32 → StateT σ Option UInt32) g = some (ds, g') →
      ∃ ws, Draws g ws g' ∧ ws.filterMap (face? sides) = ds
  | 0, g, g', ds, h => by
    cases (show some (([] : List UInt32), g) = some (ds, g') from h)
    exact ⟨[], .nil, rfl⟩
  | n + 1, g, g', ds, h => by
    rw [List.replicate_succ, List.mapM_cons] at h
    obtain ⟨⟨d, g₁⟩, hd, h⟩ := Option.bind_eq_some_iff.mp h
    obtain ⟨⟨ds', g₂⟩, hds, h⟩ := Option.bind_eq_some_iff.mp h
    obtain ⟨rfl, rfl⟩ := Prod.mk.inj (Option.some.inj h)
    obtain ⟨us, w, -, hfalls, hdraws⟩ := faceWithin_eq_some_iff.mp hd
    obtain ⟨ws, hdraws', hws⟩ := exists_draws_of_mapM_die hds
    refine ⟨us ++ [w] ++ ws, hdraws.append hdraws', ?_⟩
    have hrefused : us.filterMap (face? sides) = [] :=
      List.filterMap_eq_nil_iff.mpr hfalls.refused
    simp only [List.filterMap_append, hrefused, hws, List.nil_append, List.filterMap_cons,
      hfalls.accepted, List.filterMap_nil, List.cons_append]

/-- Words of which none is refused are drawn for one die each, by a source that draws at all. -/
theorem mapM_die_of_draws (hpatience : ∀ g : σ, 0 < WordSource.patience g) :
    ∀ {ws ds : List UInt32} {g : σ}, Draws g ws g' → ws.map (face? sides) = ds.map some →
      (List.replicate ds.length sides).mapM (die : UInt32 → StateT σ Option UInt32) g = some (ds, g')
  | [], ds, g, hdraws, hws => by
    obtain rfl := List.map_eq_nil_iff.mp hws.symm
    rw [draws_nil_iff.mp hdraws]
    rfl
  | w :: ws, ds, g, hdraws, hws => by
    obtain ⟨d, ds, rfl, hd, hds⟩ := List.map_eq_cons_iff.mp hws.symm
    obtain ⟨hnext, hdraws⟩ := draws_cons_iff.mp hdraws
    have hdie : die sides g = some (d, (WordSource.next g).2) :=
      faceWithin_eq_some_iff.mpr ⟨[], w, hpatience g, ⟨List.forall_mem_nil _, hd.symm⟩,
        draws_cons_iff.mpr ⟨hnext, .nil⟩⟩
    rw [List.length_cons, List.replicate_succ, List.mapM_cons]
    exact Option.bind_eq_some_iff.mpr ⟨_, hdie, Option.bind_eq_some_iff.mpr
      ⟨_, mapM_die_of_draws hpatience hdraws hds.symm, rfl⟩⟩

end Drawing

/-! ### Scripts -/

namespace Script

/-- What is drawn from a script is the beginning of it, and zeros behind it. -/
theorem exists_append_of_draws {us ws vs : List UInt32} {g g' : Script} (h : Draws g ws g')
    (hg : g = ⟨us⟩) (hg' : g' = ⟨vs⟩) : ∃ n, us ++ List.replicate n 0 = ws ++ vs := by
  induction h generalizing us with
  | nil =>
    obtain rfl : us = vs := congrArg words (hg.symm.trans hg')
    exact ⟨0, List.append_nil us⟩
  | cons _ ih =>
    subst hg
    cases us with
    | nil =>
      obtain ⟨n, hn⟩ := ih rfl hg'
      exact ⟨n + 1, congrArg (0 :: ·) hn⟩
    | cons u us =>
      obtain ⟨n, hn⟩ := ih rfl hg'
      exact ⟨n, congrArg (u :: ·) hn⟩

/-- The words of a script are drawn in their order. -/
theorem draws : ∀ ws vs : List UInt32, Draws (⟨ws ++ vs⟩ : Script) ws ⟨vs⟩
  | [], _ => .nil
  | _ :: ws, vs => draws_cons_iff.mpr ⟨rfl, draws ws vs⟩

theorem patience_pos (g : Script) : 0 < WordSource.patience g := Nat.succ_pos _

end Script

/-- Every word drawn from a metered source is counted. -/
theorem Metered.draws_iff {σ : Type} [WordSource σ] : ∀ {ws : List UInt32} {m m' : Metered σ},
    Draws m ws m' ↔ Draws m.source ws m'.source ∧ m'.drawn = m.drawn + ws.length
  | [], ⟨g, k⟩, ⟨g', k'⟩ => by
    rw [draws_nil_iff, draws_nil_iff, Metered.mk.injEq]
    exact and_congr_right fun _ => eq_comm
  | w :: ws, m, m' => by
    have hnext : (WordSource.next m).2 = ⟨(WordSource.next m.source).2, m.drawn + 1⟩ := rfl
    rw [draws_cons_iff, draws_cons_iff, draws_iff, hnext, List.length_cons, and_assoc,
      Nat.add_assoc, Nat.add_comm 1]
    rfl

end DiceBot
