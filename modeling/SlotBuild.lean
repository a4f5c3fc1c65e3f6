import SlotBuild.Main
import SlotBuild.Proofs.Derivation
import SlotBuild.Proofs.Repetition
import SlotBuild.Proofs.Session.Reschedule
import SlotBuild.Proofs.Session.Selection
import SlotBuild.Proofs.Coordinator.Blockage
import SlotBuild.Proofs.Session.Foresight
import SlotBuild.Proofs.Session.Saving
import SlotBuild.Proofs.Ledger.Reloading
import SlotBuild.Proofs.Ledger.Atomicity
import SlotBuild.Proofs.FileTree.Listing
import SlotBuild.Proofs.FileTree.Interruption
import SlotBuild.Proofs.Session.Cardinality
import SlotBuild.Proofs.Graph.Standalone
import SlotBuild.Proofs.Session.Peaceful
import SlotBuild.Proofs.Session.Handover
import SlotBuild.Proofs.Manifest.ConfigText
import SlotBuild.Proofs.Graph.Loop
import SlotBuild.Proofs.Graph.LeastOrder
import SlotBuild.Proofs.Coordinator.Lockstep
import SlotBuild.Proofs.Ledger.CarryForward
import SlotBuild.Proofs.Project
import SlotBuild.Proofs.Project.Cleaning
import SlotBuild.Proofs.Scaffold
import SlotBuild.Proofs.FileTree.Lossless
import SlotBuild.Proofs.Graph.Duality
