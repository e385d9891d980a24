import ZMachine.Main
import ZMachine.Object.Snapshot
import ZMachine.Proofs.Checked.Step
import ZMachine.Proofs.Machine.CallBracket
import ZMachine.Proofs.Machine.ControlFlow
import ZMachine.Proofs.Machine.Encoding
import ZMachine.Proofs.Machine.Invariant
import ZMachine.Proofs.Machine.Restart
import ZMachine.Proofs.Machine.Undo
import ZMachine.Proofs.Object.Changes
import ZMachine.Proofs.Object.PropertyList
import ZMachine.Proofs.Text.RoundTrip
import ZMachine.Proofs.Text.TypedWord
import ZMachine.Session
import ZMachine.Proofs.Object.FailedMoves
import ZMachine.Proofs.Object.PropertyData
import ZMachine.Proofs.Machine.Printing
import ZMachine.Proofs.Machine.Capture
import ZMachine.Proofs.Instruction.Locality
import ZMachine.Proofs.Text.Meaning
import ZMachine.Proofs.Machine.ParseBuffer
import ZMachine.Proofs.Machine.WordIntervals
import ZMachine.Proofs.Machine.CallBinding
import ZMachine.Proofs.Machine.CopyTable
import ZMachine.Proofs.Text.DictionaryWord
import ZMachine.Proofs.Object.BrokenChains
import ZMachine.Proofs.Machine.Failure
import ZMachine.Proofs.Story.PropertyTable
import ZMachine.Proofs.Story.ObjectDraft
import ZMachine.Proofs.Story.Objects
import ZMachine.Proofs.Machine.RunLimits
import ZMachine.Proofs.Machine.UserStack
import ZMachine.Proofs.Machine.Variables
import ZMachine.Proofs.Story.Verification
import ZMachine.Proofs.Text.PackedWords
import ZMachine.Proofs.Machine.Division
import ZMachine.Proofs.Screen.Answers
import ZMachine.Proofs.Machine.Hosts
import ZMachine.Proofs.Screen.Transcript
import ZMachine.Proofs.Screen.Recording
import ZMachine.Proofs.Memory.Views
