import WordC.Main
import WordC.Proofs.Grammar.Soundness
import WordC.Proofs.Grammar.Completeness
import WordC.Proofs.Grammar.Locality
import WordC.Proofs.Grammar.Bound
import WordC.Proofs.Grammar.Viability
import WordC.Proofs.Grammar.Rejection
import WordC.Proofs.Printing.Scan
import WordC.Proofs.Printing.WellFormed
import WordC.Proofs.Printing
import WordC.Proofs.Codegen.Outcome
import WordC.Proofs.Codegen.Generate
import WordC.Proofs.Evaluation
import WordC.Proofs.Machine.Run
import WordC.Proofs.Machine.Stack
import WordC.Proofs.Text.Ascii
import WordC.Proofs.Asm.ReadBack
import WordC.Proofs.Asm.Assemble
import WordC.Proofs.Asm.Contents
import WordC.Proofs.Codegen.Labels
import WordC.Proofs.Codegen.Emitted
import WordC.Proofs.Codegen.Depth
import WordC.Proofs.Codegen.FrameSize
import WordC.Proofs.Codegen.Listing
import WordC.Proofs.Machine.Execute
import WordC.Proofs.Simulation.Routine
import WordC.Proofs.Simulation.Instruction
import WordC.Proofs.Simulation.Value
import WordC.Proofs.Simulation.Parts
import WordC.Proofs.Simulation.Statement
import WordC.Proofs.Simulation.Function
import WordC.Proofs.Compile
import WordC.Proofs.Compile.StackDiscipline
import WordC.Proofs.Compile.Breach
import WordC.Proofs.Compile.Reading
import WordC.Proofs.Compile.Reserve
import WordC.Proofs.Asm.Admission
import WordC.Proofs.Machine.Access
import WordC.Proofs.Machine.Effects
import WordC.Proofs.Machine.ReadImage
import WordC.Proofs.Scan.Munch
import WordC.Proofs.Grammar.Concatenation
import WordC.Proofs.Codegen.Renaming
import WordC.Proofs.Compile.Slots
import WordC.Proofs.Compile.Immediates
import WordC.Proofs.Machine.Limit
import WordC.Proofs.Machine.Atomicity
import WordC.Proofs.Codegen.Numbering
import WordC.Proofs.Grammar.Diagnosis
import WordC.Proofs.Asm.Reprint
import WordC.Proofs.Grammar.Respacing
import WordC.Proofs.Grammar.Trail
import WordC.Proofs.Codegen.SlotTable
import WordC.Proofs.Grammar.Descent
import WordC.Proofs.Grammar.Progress
import WordC.Proofs.Machine.WordMemory
