import Markov.Check
import Markov.Product
import Markov.Update
import Markov.Proofs.SaddlePoint
import Markov.Proofs.OneSet
import Markov.Proofs.Synthesis
import Markov.Proofs.Methods
import Markov.Proofs.Residual
import Markov.Proofs.Decided
import Markov.Proofs.Impossible
import Markov.Proofs.Simulation
import Markov.Proofs.Interchange
import Markov.Proofs.Validation
import Markov.Proofs.Forced
import Markov.Proofs.Meaning
import Markov.Proofs.Construction
import Markov.Proofs.Lifecycle
import Markov.Proofs.Mixture
import Markov.Proofs.Duality
import Markov.Proofs.Settling
import Markov.Proofs.SureStrategy
import Markov.Proofs.Ascent
import Markov.Proofs.SignedZero
import Markov.Proofs.Vanishing
import Markov.Proofs.Acceptance
import Markov.Proofs.Decoding
import Markov.Proofs.Compression
import Markov.Proofs.Export
import Markov.Proofs.Guarded
import Markov.Proofs.Uniformisation
import Markov.Proofs.Accumulation
import Markov.Proofs.Rounding
import Markov.Proofs.Looping
import Markov.Proofs.Resting
import Markov.Proofs.Absorbing
import Markov.Proofs.Overflow
import Markov.Proofs.Simultaneous
import Markov.Proofs.Typing
import Markov.Proofs.Widening
import Markov.Proofs.Magnitude
import Markov.Proofs.Comparison
import Markov.Proofs.Rounds
import Markov.Proofs.Registers
import Markov.Proofs.PushForward
