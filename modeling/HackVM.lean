import HackVM.Machine.Run
import HackVM.Main
import HackVM.Proofs.Names
import HackVM.Proofs.ReadBack
import HackVM.Proofs.Resolution
import HackVM.Proofs.Sites
import HackVM.Proofs.Linking
import HackVM.Proofs.UniqueLabels
import HackVM.Proofs.Execution
import HackVM.Proofs.StackMachine
import HackVM.Proofs.Blocks
import HackVM.Proofs.Simulation
import HackVM.Proofs.CallReturn
import HackVM.Proofs.PredefinedNames
import HackVM.Proofs.Assembling
import HackVM.Proofs.FailedUnits
import HackVM.Proofs.LabelScopes
import HackVM.Proofs.Offences
import HackVM.Proofs.Variables
import HackVM.Proofs.StaticCells
import HackVM.Proofs.StaticRoom
import HackVM.Proofs.Standalone
import HackVM.Proofs.Annotations
import HackVM.Proofs.Grammar
import HackVM.Proofs.Printing
import HackVM.Proofs.FileTrees
import HackVM.Proofs.RunEffects
import HackVM.Proofs.RunAgreement
import HackVM.Proofs.Comparisons
import HackVM.Proofs.StackEffects
import HackVM.Proofs.OpeningCall
import HackVM.Proofs.Revisions
import HackVM.Proofs.SegmentPlaces
import HackVM.Proofs.RunSlices
import HackVM.Proofs.SymbolAddresses
import HackVM.Proofs.Sessions
import HackVM.Proofs.GeneratedLabels
import HackVM.Proofs.LoadedNumbers
import HackVM.Proofs.ReturnSearch
import HackVM.Proofs.DefaultOutput
