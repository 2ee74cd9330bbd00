import AuthShares.Config.Document
import AuthShares.Network.Run
import AuthShares.Opening.Ring
import AuthShares.Proofs.Aggregation.Colors
import AuthShares.Proofs.Aggregation.Faults
import AuthShares.Proofs.Aggregation.Owners
import AuthShares.Proofs.Aggregation.Shapes
import AuthShares.Proofs.Agreement.Coins
import AuthShares.Proofs.Agreement.Identities
import AuthShares.Proofs.Agreement.Reveals
import AuthShares.Proofs.Bases
import AuthShares.Proofs.Bytes.Stream
import AuthShares.Proofs.Element.Checked
import AuthShares.Proofs.Formulas
import AuthShares.Proofs.Opening.Canonicity
import AuthShares.Proofs.Opening.Deferrals
import AuthShares.Proofs.Opening.Escape
import AuthShares.Proofs.Opening.FreshStarts
import AuthShares.Proofs.Opening.Hiding
import AuthShares.Proofs.Opening.Leftovers
import AuthShares.Proofs.Opening.PartialSums
import AuthShares.Proofs.Opening.RingVerdicts
import AuthShares.Proofs.Opening.Sessions
import AuthShares.Proofs.Opening.Veils
import AuthShares.Proofs.Opening.Verdicts
import AuthShares.Proofs.Progress
