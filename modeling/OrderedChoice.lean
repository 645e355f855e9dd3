import OrderedChoice.Folder
import OrderedChoice.Main
import OrderedChoice.Rule.Outline
import OrderedChoice.Proofs.Compilation
import OrderedChoice.Proofs.Coherence
import OrderedChoice.Proofs.Contents
import OrderedChoice.Proofs.Evaluation
import OrderedChoice.Proofs.Frames
import OrderedChoice.Proofs.Lockstep
import OrderedChoice.Proofs.Following
import OrderedChoice.Proofs.Meaning
import OrderedChoice.Proofs.Realization
import OrderedChoice.Proofs.History
import OrderedChoice.Proofs.Purity
import OrderedChoice.Proofs.Judgement
import OrderedChoice.Proofs.Tiers
import OrderedChoice.Proofs.Expressions
import OrderedChoice.Proofs.DepthLimit
import OrderedChoice.Proofs.Calculation
import OrderedChoice.Proofs.Nesting
import OrderedChoice.Proofs.Depth
import OrderedChoice.Proofs.Guarding
import OrderedChoice.Proofs.Discipline
import OrderedChoice.Proofs.LeftCalls
import OrderedChoice.Proofs.Termination
import OrderedChoice.Proofs.Reporting
import OrderedChoice.Proofs.Linking
import OrderedChoice.Proofs.Aliases
import OrderedChoice.Proofs.Residue
import OrderedChoice.Proofs.Doubling
import OrderedChoice.Proofs.Lexing
import OrderedChoice.Proofs.Attempts
import OrderedChoice.Proofs.Recursion
import OrderedChoice.Proofs.Generations
import OrderedChoice.Proofs.Flattening
import OrderedChoice.Proofs.Positions
import OrderedChoice.Proofs.Reading
import OrderedChoice.Proofs.Layers
import OrderedChoice.Proofs.Totality
import OrderedChoice.Proofs.Rewriting
import OrderedChoice.Proofs.Grouping
