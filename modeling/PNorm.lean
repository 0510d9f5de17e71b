import PNorm.Config.Basic
import PNorm.Main
import PNorm.Console.Process
import PNorm.Proofs.Call.Refusals
import PNorm.Proofs.Console.Inline
import PNorm.Proofs.Console.ReadBack
import PNorm.Proofs.Session.Literals
import PNorm.Proofs.Session.Sharing
import PNorm.Proofs.Session.Numbering
import PNorm.Proofs.Norm.Routines
import PNorm.Proofs.Session.Order
import PNorm.Proofs.Session.Values
import PNorm.Proofs.Signature.RoundTrip
import PNorm.Proofs.Console.Line
import PNorm.Proofs.Console.Evaluation
import PNorm.Proofs.Console.Options
import PNorm.Proofs.Console.Start
import PNorm.Proofs.Console.Demonstration
import PNorm.Proofs.Console.Finish
import PNorm.Proofs.Signature.Defects
import PNorm.Proofs.Session.Policies
import PNorm.Proofs.Norm.Nan
import PNorm.Proofs.Norm.Zeros
import PNorm.Proofs.Norm.Signs
import PNorm.Proofs.Console.Notation
import PNorm.Proofs.Config.Reading
import PNorm.Proofs.Console.Documents
import PNorm.Proofs.Norm.Growth
import PNorm.Proofs.Norm.Checks
