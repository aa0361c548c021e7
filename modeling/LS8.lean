import LS8.CommandLine.Session
import LS8.Proofs.Machine.Rules
import LS8.Proofs.Machine.Trail
import LS8.Proofs.Machine.Failure
import LS8.Proofs.Machine.Dispatch
import LS8.Proofs.Machine.Stack
import LS8.Proofs.Program.Acceptance
import LS8.Proofs.Program.Layout
import LS8.Proofs.Machine.Sweep
import LS8.Proofs.Machine.Footprint
import LS8.Proofs.Machine.Reachable
import LS8.Proofs.Memory.History
import LS8.Proofs.Program.Loading
import LS8.Proofs.Machine.LastStore
import LS8.Proofs.Machine.Saving
import LS8.Proofs.Machine.Output
import LS8.Proofs.Machine.Journal
import LS8.Proofs.CommandLine.Outcome
import LS8.Proofs.Program.Journal
import LS8.Proofs.Program.Reformatting
import LS8.Proofs.Machine.Dump
import LS8.Proofs.Machine.Arithmetic
