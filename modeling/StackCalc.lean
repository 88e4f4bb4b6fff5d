import StackCalc.Main
import StackCalc.Proofs.CommandLine.Endings
import StackCalc.Proofs.CommandLine.Inputs
import StackCalc.Proofs.CommandLine.Switches
import StackCalc.Proofs.Groups
import StackCalc.Proofs.Listing.Building
import StackCalc.Proofs.Listing.Execution
import StackCalc.Proofs.Listing.Readback
import StackCalc.Proofs.Machine.Sequence
import StackCalc.Proofs.Parsing.Completion
import StackCalc.Proofs.Parsing.Effects
import StackCalc.Proofs.Parsing.Formulas
import StackCalc.Proofs.Parsing.Nesting
import StackCalc.Proofs.Parsing.Origins
import StackCalc.Proofs.Scanning.Printing
import StackCalc.Proofs.Scanning.Rescans
import StackCalc.Proofs.Session.Transcripts
