import QuadCode.Compile
import QuadCode.Proofs.Assignment
import QuadCode.Proofs.Checking
import QuadCode.Proofs.JumpSafety
import QuadCode.Proofs.Preservation
import QuadCode.Proofs.RoundTrip
import QuadCode.Proofs.Symbolic
import QuadCode.Proofs.Direction
import QuadCode.Proofs.Correspondence
import QuadCode.Proofs.Renaming
import QuadCode.Proofs.Declarations
import QuadCode.Proofs.Listing
import QuadCode.Proofs.Computation
import QuadCode.Proofs.Resolution
import QuadCode.Proofs.Relocation
import QuadCode.Proofs.Histories
import QuadCode.Proofs.Normalization
import QuadCode.Proofs.Relabeling
import QuadCode.Proofs.NumericEquality
import QuadCode.Proofs.FloatText
import QuadCode.Proofs.FreshSearch
