import ProofAssistant.Main
import ProofAssistant.Term.Explicit
import ProofAssistant.Proofs.Conservativity
import ProofAssistant.Proofs.ContextNames
import ProofAssistant.Proofs.FailedCommands
import ProofAssistant.Proofs.Instantiation
import ProofAssistant.Proofs.LateSolutions
import ProofAssistant.Proofs.LevelExactness
import ProofAssistant.Proofs.NumeralOrder
import ProofAssistant.Proofs.Polymorphism
import ProofAssistant.Proofs.RegistrationOrder
import ProofAssistant.Proofs.RewriteBack
