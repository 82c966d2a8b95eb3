import HackVM.Machine
import HackVM.Main
import HackVM.Proofs.RoundTrip
import HackVM.Proofs.Arguments
import HackVM.Proofs.Paths
import HackVM.Proofs.Pieces
import HackVM.Proofs.Accepted
import HackVM.Proofs.Loading
import HackVM.Proofs.Layout
import HackVM.Proofs.Names
import HackVM.Proofs.Spelling
import HackVM.Proofs.Uniqueness
import HackVM.Proofs.Numbering
import HackVM.Proofs.Verdict
import HackVM.Proofs.Spacing
import HackVM.Proofs.Written
import HackVM.Proofs.Variables
import HackVM.Proofs.Capture
import HackVM.Proofs.Targets
import HackVM.Proofs.Assembler
import HackVM.Proofs.Execution
import HackVM.Proofs.StackMachine
import HackVM.Proofs.Effects
import HackVM.Proofs.Simulation
import HackVM.Proofs.Signed
import HackVM.Proofs.Statics
import HackVM.Proofs.Reading
import HackVM.Proofs.Refinement
import HackVM.Proofs.Routes
import HackVM.Proofs.Writing
import HackVM.Proofs.Rerun
import HackVM.Proofs.Frames
import HackVM.Proofs.Balance
import HackVM.Proofs.Containment
import HackVM.Proofs.Halting
import HackVM.Proofs.Mnemonics
import HackVM.Proofs.Phrases
import HackVM.Proofs.Limits
import HackVM.Proofs.Faults
import HackVM.Proofs.Forward
import HackVM.Proofs.Requests
import HackVM.Proofs.KeptLines
import HackVM.Proofs.ByteOrder
import HackVM.Proofs.Discovery
