import RiscAsm.Main
import RiscAsm.Proofs.FirstFaults
import RiscAsm.Proofs.PrintedProgram
import RiscAsm.Proofs.PseudoMeaning
import RiscAsm.Proofs.ReachedLabels
import RiscAsm.Proofs.ReencodedWords
import RiscAsm.Proofs.RelocatedSources
import RiscAsm.Proofs.ExpansionSessions
import RiscAsm.Proofs.OperandCharacters
import RiscAsm.Proofs.CanonicalSource
import RiscAsm.Proofs.EditedSources
import RiscAsm.Proofs.CutImages
import RiscAsm.Proofs.MipsAcceptance
import RiscAsm.Proofs.RiscVAcceptance
import RiscAsm.Proofs.CommandWrites
import RiscAsm.Proofs.LosslessLayouts
import RiscAsm.Proofs.LineGrammar
import RiscAsm.Proofs.SeparatedEntries
import RiscAsm.Proofs.ListedProgram
import RiscAsm.Proofs.LiteralGrammar
import RiscAsm.Proofs.MachineFields
import RiscAsm.Proofs.FaultyEntries
import RiscAsm.Proofs.OperandCounts
import RiscAsm.Proofs.OperandGrammar
