import NonceSweep.Main
import NonceSweep.Pool.Relay
import NonceSweep.Proofs.Engine.Seeding
import NonceSweep.Proofs.Engine.OneSlot
import NonceSweep.Proofs.Work.Patching
import NonceSweep.Proofs.Outcome.Merging
import NonceSweep.Proofs.Pool.Runs
import NonceSweep.Proofs.Pool.Sound
import NonceSweep.Proofs.Pool.Account
import NonceSweep.Proofs.Pool.InTurn
import NonceSweep.Proofs.Pool.Settling
import NonceSweep.Proofs.Pool.Numbers
import NonceSweep.Proofs.Pool.Diligence
import NonceSweep.Proofs.Pool.Custody
import NonceSweep.Proofs.Pool.Loop
import NonceSweep.Proofs.Sweep.Outcome
import NonceSweep.Proofs.Engine.Bundled
import NonceSweep.Proofs.Sweep.Independence
import NonceSweep.Proofs.Sweep.Balance
import NonceSweep.Proofs.Sweep.Containment
import NonceSweep.Proofs.Sweep.Termination
import NonceSweep.Proofs.Pool.Balance
import NonceSweep.Proofs.Pool.Joining
import NonceSweep.Proofs.Pool.Calls
import NonceSweep.Proofs.Pool.Relay
import NonceSweep.Proofs.Sweep.Lifecycle
import NonceSweep.Proofs.Sweep.Agreement
import NonceSweep.Proofs.Engine.LastWriter
import NonceSweep.Proofs.Engine.InRange
import NonceSweep.Proofs.Primitive.CipherRound
import NonceSweep.Proofs.Engine.CipherLayer
import NonceSweep.Proofs.Engine.Addressing
import NonceSweep.Proofs.Outcome.FingerprintText
import NonceSweep.Proofs.Work.MaskText
import NonceSweep.Proofs.Work.Dealing
import NonceSweep.Proofs.Work.NonceField
import NonceSweep.Proofs.CommandLine.Words
import NonceSweep.Proofs.CommandLine.Switches
import NonceSweep.Proofs.CommandLine.Spelling
import NonceSweep.Proofs.Decimal.Reading
import NonceSweep.Proofs.Text.Json
import NonceSweep.Proofs.Outcome.ReportText
