import CoinScript.Amount
import CoinScript.Engine.Spend
import CoinScript.Policy
import CoinScript.Script.Assembly
import CoinScript.Script.Shorthand
import CoinScript.Script.SigOps
import CoinScript.Script.Stored
import CoinScript.Template.Build
import CoinScript.Transaction.Edit
import CoinScript.Transaction.Parse
import CoinScript.Wallet.Combine
import CoinScript.Wallet.Sign
import CoinScript.Proofs.Outcome
import CoinScript.Proofs.Performing
import CoinScript.Proofs.Running
import CoinScript.Proofs.SigCheckCount
import CoinScript.Proofs.Instructions
import CoinScript.Proofs.TemplateRuns
import CoinScript.Proofs.PayToHash
import CoinScript.Proofs.Easing
import CoinScript.Proofs.SigningEasing
import CoinScript.Proofs.FlagMonotone
import CoinScript.Proofs.MultisigOperands
import CoinScript.Proofs.OrderedMultisig
import CoinScript.Proofs.Checkbits
import CoinScript.Proofs.SelectedMultisig
import CoinScript.Proofs.HashTypes
import CoinScript.Proofs.SignatureEncoding
import CoinScript.Proofs.Parsing
import CoinScript.Proofs.MinimalPushes
import CoinScript.Proofs.Acting
import CoinScript.Proofs.Steps
import CoinScript.Proofs.Charges
import CoinScript.Proofs.ScriptVouched
import CoinScript.Proofs.SigOpsBound
import CoinScript.Proofs.ItemGrowth
import CoinScript.Proofs.ResourceBounds
import CoinScript.Proofs.Segments
import CoinScript.Proofs.BranchSelection
import CoinScript.Proofs.OpBudget
import CoinScript.Proofs.TransactionReading
import CoinScript.Proofs.LegacyDigest
import CoinScript.Proofs.PreimageCoverage
import CoinScript.Proofs.Spellings
import CoinScript.Proofs.SigningFrame
import CoinScript.Proofs.Pushes
import CoinScript.Proofs.TemplateShapes
import CoinScript.Proofs.SignatureRemoval
import CoinScript.Proofs.MultisigRuns
import CoinScript.Proofs.CombinedMultisig
import CoinScript.Proofs.FinishedSpend
import CoinScript.Proofs.MergedSpend
import CoinScript.Proofs.SpoiledSpend
import CoinScript.Proofs.KeptDigests
import CoinScript.Proofs.CosignerOrder
import CoinScript.Proofs.KeyTemplates
import CoinScript.Proofs.Solving
import CoinScript.Proofs.SignerCompleteness
import CoinScript.Proofs.RevealedScript
import CoinScript.Proofs.StrictDer
import CoinScript.Proofs.Numerals
import CoinScript.Proofs.WrittenDer
import CoinScript.Proofs.SignatureCalls
import CoinScript.Proofs.CoveredScript
import CoinScript.Proofs.LaxDer
import CoinScript.Proofs.ModularPowers
import CoinScript.Proofs.PrimeCertificates
import CoinScript.Proofs.CurveGroup
import CoinScript.Proofs.CurveGenerator
import CoinScript.Proofs.SchnorrSignatures
import CoinScript.Proofs.TemplateItems
import CoinScript.Proofs.ItemPlaces
import CoinScript.Proofs.MinimalNumbers
import CoinScript.Proofs.NumberWords
import CoinScript.Proofs.FrozenTemplate
import CoinScript.Proofs.PublicLabels
import CoinScript.Proofs.NumberWidths
import CoinScript.Proofs.OperandArithmetic
import CoinScript.Proofs.OverlongOperands
import CoinScript.Proofs.OffsetReading
import CoinScript.Proofs.ScriptWalks
import CoinScript.Proofs.PushEvaluation
import CoinScript.Proofs.UnspendableOutputs
import CoinScript.Proofs.FixedShapes
import CoinScript.Proofs.HexDigits
import CoinScript.Proofs.OperationNames
import CoinScript.Proofs.AssemblyText
import CoinScript.Proofs.ShorthandText
import CoinScript.Proofs.CheckedSteps
import CoinScript.Proofs.StackBlocks
import CoinScript.Proofs.StackPlaces
import CoinScript.Proofs.FieldCursor
