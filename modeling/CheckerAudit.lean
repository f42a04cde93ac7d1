import CheckerAudit.Main
import CheckerAudit.Proofs.Catalog.Accounting
import CheckerAudit.Proofs.Catalog.Skipped
import CheckerAudit.Proofs.Catalog.Written
import CheckerAudit.Proofs.CommandLine.Run
import CheckerAudit.Proofs.CommandLine.Spelled
import CheckerAudit.Proofs.Numeral.Fields
import CheckerAudit.Proofs.Process.Partial
import CheckerAudit.Proofs.Process.Reworded
import CheckerAudit.Proofs.ProofCode.Binding
import CheckerAudit.Proofs.Record.Characters
import CheckerAudit.Proofs.Record.Mark
import CheckerAudit.Proofs.Record.Queries
import CheckerAudit.Proofs.Report.Stream
import CheckerAudit.Proofs.Run.Salts
import CheckerAudit.Proofs.Run.Secrecy
import CheckerAudit.Proofs.Run.States
import CheckerAudit.Proofs.Salt.Stream
import CheckerAudit.Proofs.Salt.Uniform
import CheckerAudit.Proofs.Secret
import CheckerAudit.Proofs.StubChecker.Tampering
import CheckerAudit.Proofs.Transcript.Answer
