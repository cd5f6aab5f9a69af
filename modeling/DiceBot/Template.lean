import DiceBot.Expr.Evaluate

/-! # Macro templates

A template is an expression in which the capital letters `A`, `B`, `C`, … stand for arguments. The
arguments are put in one after another, each in the text that the earlier ones gave: an argument that
holds the letter of a later one is filled in turn. Arguments beyond the letter `Z` are ignored. -/

namespace DiceBot.Template

/-- The placeholder letters in order. -/
def placeholders : List Char := "ABCDEFGHIJKLMNOPQRSTUVWXYZ".toList

theorem placeholders_length : placeholders.length = 26 := by decide

theorem placeholders_nodup : placeholders.Nodup := by decide

/-- The template with its placeholders replaced by the arguments. -/
def fill (template : Text) (args : List Text) : Text :=
  (args.zip placeholders).foldl (fun s (arg, letter) => Text.replaceChar letter arg s) template

/-- Evaluates the filled template. -/
def evaluate {σ : Type} [WordSource σ] (limits : Limits) (template : Text)
    (args : List Text) : Rolling σ Outcome :=
  DiceBot.evaluate limits (fill template args)

/-- The arguments with which a template is tried out: a `1` for every placeholder. -/
def trialArgs : List Text := placeholders.map fun _ => ['1']

/-- Checks a template by evaluating it with a `1` for every placeholder. -/
def validate {σ : Type} [WordSource σ] (limits : Limits) (template : Text) : Rolling σ Unit := do
  let _ ← evaluate limits template trialArgs
  pure ()

end DiceBot.Template
