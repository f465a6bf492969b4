import DreamBerd.Main
import DreamBerd.Proofs.Grouping
import DreamBerd.Proofs.PublishedCode
import DreamBerd.Proofs.Waiting
import DreamBerd.Proofs.PublicGlobals
import DreamBerd.Proofs.TurnTaking
import DreamBerd.Proofs.Kleene
import DreamBerd.Proofs.Constants
import DreamBerd.Proofs.Exports
import DreamBerd.Proofs.Archives
import DreamBerd.Proofs.Spelling
import DreamBerd.Proofs.Literals
import DreamBerd.Proofs.FunctionHeadings
import DreamBerd.Proofs.HintedParameters
import DreamBerd.Proofs.Quotations
import DreamBerd.Proofs.GuardedTexts
import DreamBerd.Proofs.Interpolation
import DreamBerd.Proofs.StringLaws
import DreamBerd.Proofs.Lifetimes
import DreamBerd.Proofs.PromptLines
import DreamBerd.Proofs.DigitArrays
import DreamBerd.Proofs.Histories
import DreamBerd.Proofs.Comparisons
import DreamBerd.Proofs.Nearness
import DreamBerd.Proofs.Overlooked
import DreamBerd.Proofs.Instances
import DreamBerd.Proofs.Signals
import DreamBerd.Proofs.FailedDeclarations
import DreamBerd.Proofs.Bindings
import DreamBerd.Proofs.Columns
