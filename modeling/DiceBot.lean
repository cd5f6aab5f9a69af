import DiceBot.Expr.Infix
import DiceBot.Expr.Spelling
import DiceBot.Main
import DiceBot.Store.Failing
import DiceBot.Console.Address
import DiceBot.Console.Database
import DiceBot.Proofs.Expr.Meaning
import DiceBot.Proofs.Expr.Shape
import DiceBot.Proofs.Expr.Trail
import DiceBot.Proofs.Template.Validation
import DiceBot.Proofs.Store.History
import DiceBot.Proofs.Store.Freshness
import DiceBot.Proofs.Bot.Stored
import DiceBot.Proofs.Bot.Isolation
import DiceBot.Proofs.Bot.Racing
import DiceBot.Proofs.Bot.Recognition
import DiceBot.Proofs.Expr.Rerolling
import DiceBot.Proofs.Expr.Composing
import DiceBot.Proofs.Bot.Addressing
import DiceBot.Proofs.Config.Loading
import DiceBot.Proofs.Expr.Redundancy
import DiceBot.Proofs.Expr.Reordering
import DiceBot.Proofs.Expr.Limiting
import DiceBot.Proofs.Expr.Totals
import DiceBot.Proofs.Dice.Fairness
import DiceBot.Proofs.Store.Numbering
import DiceBot.Proofs.Template.Operands
import DiceBot.Proofs.Bot.Allowing
import DiceBot.Proofs.Expr.Scanning
import DiceBot.Proofs.Bot.Rendering
