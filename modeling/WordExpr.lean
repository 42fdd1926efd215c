import WordExpr.Main
import WordExpr.Proofs.Batch.Printed
import WordExpr.Proofs.Building.Refusal
import WordExpr.Proofs.CommandLine.Refused
import WordExpr.Proofs.ConsolidatedMeaning
import WordExpr.Proofs.Evaluation.Narrowing
import WordExpr.Proofs.Normalized
import WordExpr.Proofs.Preorder
import WordExpr.Proofs.Registry.Operations
import WordExpr.Proofs.Registry.Shortlex
import WordExpr.Proofs.RenderedMeaning
import WordExpr.Proofs.Respelling
import WordExpr.Proofs.Retelling
import WordExpr.Proofs.RoundTrip
import WordExpr.Proofs.Session.Unused
import WordExpr.Proofs.Spelling.Literals
import WordExpr.Proofs.Spelling.Lossless
import WordExpr.Proofs.Table.Accounts
import WordExpr.Proofs.Table.Size
import WordExpr.Proofs.WellFormed.Verdict
import WordExpr.Proofs.WellFormed.Viable
