import NorFlash.Bytes
import NorFlash.Act
import NorFlash.Chip.Catalog
import NorFlash.Erase.Narration
import NorFlash.Protocol.Identification
import NorFlash.Flash.Write
import NorFlash.Session.Queue
import NorFlash.Simulation.Bench
import NorFlash.Simulation.Machine
import NorFlash.Database.Directory
import NorFlash.Session.Parameters
import NorFlash.Session.Selection
import NorFlash.Main
import NorFlash.Proofs.Accepted
import NorFlash.Proofs.Content
import NorFlash.Proofs.Covering
import NorFlash.Proofs.CellOperation
import NorFlash.Proofs.Performs
import NorFlash.Proofs.Commands
import NorFlash.Proofs.Ranges
import NorFlash.Proofs.Script
import NorFlash.Proofs.Writing
import NorFlash.Proofs.Interrupted
import NorFlash.Proofs.DeadEnd
import NorFlash.Proofs.Recorded
import NorFlash.Proofs.Discipline
import NorFlash.Proofs.Wire
import NorFlash.Proofs.Refusal
import NorFlash.Proofs.Choice
import NorFlash.Proofs.Nested
import NorFlash.Proofs.Safeguards
import NorFlash.Proofs.EraseAgreement
import NorFlash.Proofs.Wear
import NorFlash.Proofs.Parallel
import NorFlash.Proofs.Workshops
import NorFlash.Proofs.Lifetimes
import NorFlash.Proofs.Probed
import NorFlash.Proofs.Reports
import NorFlash.Proofs.Tally
import NorFlash.Proofs.Checked.Planning
import NorFlash.Proofs.Checked.Steps
import NorFlash.Proofs.Checked.Flash
import NorFlash.Proofs.CommandOrder
import NorFlash.Proofs.Course
import NorFlash.Proofs.Traffic
import NorFlash.Proofs.PowerDown
import NorFlash.Proofs.Limits
import NorFlash.Proofs.Transports
import NorFlash.Proofs.Identity
import NorFlash.Proofs.Partition
import NorFlash.Proofs.ReadBack
import NorFlash.Proofs.Loading
import NorFlash.Proofs.RawCommands
import NorFlash.Proofs.Rule
import NorFlash.Proofs.Erasing
import NorFlash.Proofs.Checked.Emulation
import NorFlash.Proofs.Prompt
import NorFlash.Proofs.Polling
import NorFlash.Proofs.Phrase
import NorFlash.Proofs.Firmware
import NorFlash.Proofs.Storage
import NorFlash.Proofs.Replacement
import NorFlash.Proofs.AtRest
import NorFlash.Proofs.Reopening
import NorFlash.Proofs.Twins
import NorFlash.Proofs.Seated
import NorFlash.Proofs.Memory
import NorFlash.Proofs.Loss
import NorFlash.Proofs.Rounding
import NorFlash.Proofs.Quantities
