import DiceBot.Store.Macro

/-! # Stores that do not cooperate

`ClosedStore` is a store whose worker has stopped: every call fails. `OvertakenStore` stands for a
store in which somebody else is always a moment faster: nothing is found, and every change comes too
late. A `FaultyStore` is a store of which some calls fail. -/

namespace DiceBot

/-- A store whose worker has stopped. -/
structure ClosedStore where
deriving Repr, DecidableEq

/-- Every call fails and changes nothing. -/
instance : Store ClosedStore where
  find s _ _ := (.error .workerClosed, s)
  create s _ _ _ := (.error .workerClosed, s)
  update s _ _ _ := (.error .workerClosed, s)
  delete s _ _ := (.error .workerClosed, s)
  list s _ := (.error .workerClosed, s)

/-- A store in which every change comes too late. -/
structure OvertakenStore where
deriving Repr, DecidableEq

/-- Every call succeeds, finds nothing and changes nothing. -/
instance : Store OvertakenStore where
  find s _ _ := (.ok none, s)
  create s _ _ _ := (.ok false, s)
  update s _ _ _ := (.ok false, s)
  delete s _ _ := (.ok false, s)
  list s _ := (.ok [], s)

/-- A store and what becomes of the next calls to it: the error of each that fails. Later calls do not
fail. -/
structure FaultyStore (σ : Type) where
  store : σ
  faults : List (Option ServiceError)
deriving Repr, DecidableEq

namespace FaultyStore

variable {σ α : Type}

/-- Makes a call, unless it is one that fails. A call that fails changes nothing. -/
def attempt (s : FaultyStore σ) (f : σ → Except ServiceError α × σ) :
    Except ServiceError α × FaultyStore σ :=
  match s.faults with
  | some e :: faults => (.error e, { s with faults })
  | _ =>
    match f s.store with
    | (answer, store) => (answer, ⟨store, s.faults.tail⟩)

end FaultyStore

/-- The calls that do not fail are made to the store. -/
instance {σ : Type} [Store σ] : Store (FaultyStore σ) where
  find s group name := s.attempt fun s => Store.find s group name
  create s group name expression := s.attempt fun s => Store.create s group name expression
  update s group name expression := s.attempt fun s => Store.update s group name expression
  delete s group name := s.attempt fun s => Store.delete s group name
  list s group := s.attempt fun s => Store.list s group

end DiceBot
